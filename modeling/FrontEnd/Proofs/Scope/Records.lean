import FrontEnd.Proofs.Scope.Stamped

/-! What is added to a tree of scopes, in order: the scopes that are opened and the symbols that are
bound. The tree that results has nothing else in it. -/

namespace FrontEnd

namespace ScopeTree

variable {S S' S'' : ScopeTree} {c d : ScopeId} {a : Symbol} {i : SymbolId}

def outline (S : ScopeTree) : List (ScopeId × Position × Option ScopeId) :=
  S.scopes.toList.mapIdx fun i s => (⟨i⟩, s.place, s.parent)

theorem length_outline (S : ScopeTree) : S.outline.length = S.scopes.size := by simp [outline]

/-- From `S` to `S'` exactly the scopes `os` were opened and exactly the symbols in `bs` were bound,
each in the scope that it stands with there. -/
structure Gains (S S' : ScopeTree) (os : List (ScopeId × Position × Option ScopeId))
    (bs : List (ScopeId × Symbol)) : Prop where
  outline : S'.outline = S.outline ++ os
  symbols : S'.symbols.toList = S.symbols.toList ++ bs.map Prod.snd
  names {c : ScopeId} {n : String} {s : SymbolId} : S'.local? c n = some s ↔
    S.local? c n = some s ∨
      ∃ j a, s.index = S.symbols.size + j ∧ bs[j]? = some (c, a) ∧ a.name = n

namespace Gains

variable {os os' : List (ScopeId × Position × Option ScopeId)} {bs bs' : List (ScopeId × Symbol)}

theorem refl (S : ScopeTree) : S.Gains S [] [] := ⟨by simp, by simp, by simp⟩

theorem size_scopes (h : S.Gains S' os bs) : S'.scopes.size = S.scopes.size + os.length := by
  rw [← length_outline, h.outline, List.length_append, length_outline]

theorem size_symbols (h : S.Gains S' os bs) : S'.symbols.size = S.symbols.size + bs.length := by
  rw [← Array.length_toList, h.symbols, List.length_append, Array.length_toList, List.length_map]

theorem trans (h : S.Gains S' os bs) (h' : S'.Gains S'' os' bs') :
    S.Gains S'' (os ++ os') (bs ++ bs') where
  outline := by rw [h'.outline, h.outline, List.append_assoc]
  symbols := by rw [h'.symbols, h.symbols, List.append_assoc, List.map_append]
  names {c n s} := by
    rw [h'.names, h.names, h.size_symbols, or_assoc]
    refine or_congr_right ⟨?_, ?_⟩
    · rintro (⟨j, a, hj, hbs, hn⟩ | ⟨j, a, hj, hbs, hn⟩)
      · have hlt := (List.getElem?_eq_some_iff.mp hbs).1
        exact ⟨j, a, hj, by rw [List.getElem?_append_left hlt, hbs], hn⟩
      · refine ⟨bs.length + j, a, by omega, ?_, hn⟩
        rw [List.getElem?_append_right (Nat.le_add_right _ _), Nat.add_sub_cancel_left, hbs]
    · rintro ⟨j, a, hj, hbs, hn⟩
      by_cases hlt : j < bs.length
      · exact .inl ⟨j, a, hj, by rwa [List.getElem?_append_left hlt] at hbs, hn⟩
      · rw [List.getElem?_append_right (by omega)] at hbs
        exact .inr ⟨j - bs.length, a, by omega, hbs, hn⟩

theorem of_push (S : ScopeTree) (place : Position) (parent : Option ScopeId) :
    S.Gains (S.push place parent).2 [(⟨S.scopes.size⟩, place, parent)] [] where
  outline := by simp [ScopeTree.outline, push, List.mapIdx_append]
  symbols := by simp [push]
  names {d n s} := by
    by_cases hd : d = (S.push place parent).1
    · have hnone : S.local? (S.push place parent).1 n = none := by simp [local?, scope?, push]
      rw [hd, local?_push_self, hnone]
      simp
    · rw [local?_push_of_ne hd]
      simp

theorem of_bind (h : S.bind c a = .ok (i, S')) (hc : S.Holds c) : S.Gains S' [] [(c, a)] where
  outline := by
    obtain ⟨_, _, rfl⟩ := of_bind_ok h
    refine List.ext_getElem? fun j => ?_
    simp only [ScopeTree.outline, List.append_nil, List.getElem?_mapIdx, Array.getElem?_toList,
      Array.getElem?_modify]
    split
    · cases S.scopes[j]? <;> rfl
    · rfl
  symbols := by
    obtain ⟨_, _, rfl⟩ := of_bind_ok h
    simp
  names {d n s} := by
    obtain ⟨hnone, hi, _⟩ := of_bind_ok h
    by_cases hd : d = c ∧ n = a.name
    · obtain ⟨rfl, rfl⟩ := hd
      rw [local?_bind_self h hc, hnone, hi]
      constructor
      · intro hs
        exact .inr ⟨0, a, by rw [← Option.some.inj hs]; rfl, rfl, rfl⟩
      · rintro (hs | ⟨j, b, hj, hb, -⟩)
        · exact nomatch hs
        · have hlt : j < 1 := (List.getElem?_eq_some_iff.mp hb).1
          have hs : (⟨S.symbols.size⟩ : SymbolId) = s := by
            rw [Nat.lt_one_iff.mp hlt, Nat.add_zero] at hj
            rw [← hj]
          rw [hs]
    · rw [local?_bind_of_ne h (Decidable.not_and_iff_or_not.mp hd)]
      refine (or_iff_left ?_).symm
      rintro ⟨j, b, -, hb, rfl⟩
      have hmem := List.mem_singleton.mp (List.mem_of_getElem? hb)
      obtain ⟨rfl, rfl⟩ := Prod.mk.inj hmem
      exact hd ⟨rfl, rfl⟩

end Gains

end ScopeTree

namespace Stamping

open ScopeTree

variable {r : Stamping} {c : ScopeId} {a : Symbol}

theorem gains_declare (hc : r.tree.Holds c) (h : (r.declare c a).failure = none) :
    r.tree.Gains (r.declare c a).tree [] [(c, a)] := by
  obtain ⟨_, i, hi⟩ := of_declare h
  exact .of_bind hi hc

theorem gains_declareParams {ps : List Token} {ts : List TypeId} (hc : r.tree.Holds c)
    (h : (declareParams c ps ts r).failure = none) :
    r.tree.Gains (declareParams c ps ts r).tree []
      (ps.mapIdx fun i p => (c, ⟨.var, p.text, p.place, p.place, false, ts[i]?⟩)) := by
  induction ps generalizing ts r with
  | nil => exact .refl _
  | cons p ps ih =>
    have hsize := size_declare r c ⟨.var, p.text, p.place, p.place, false, ts.head?⟩
    have hrest := ih (Nat.lt_of_lt_of_eq hc hsize.symm) h
    have hp := gains_declare hc (of_declareParams (Nat.lt_of_lt_of_eq hc hsize.symm) h).1
    have hboth := hp.trans hrest
    rw [List.mapIdx_cons]
    simpa [declareParams, List.head?_eq_getElem?] using hboth

end Stamping

end FrontEnd
