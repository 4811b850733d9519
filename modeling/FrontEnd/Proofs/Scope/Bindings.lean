import FrontEnd.Proofs.Scope.Mirroring
import FrontEnd.Proofs.Scope.Placement

/-! The symbols that a program binds, in the order in which it is walked through. Two of them clash
only if they are declared side by side: in the root, in one block, or as parameters of one
function. -/

namespace FrontEnd

/-- The symbols are bound under the same name in the same scope. -/
def Clash (b b' : ScopeId × Symbol) : Prop := b.1 = b'.1 ∧ b.2.name = b'.2.name

/-- A block declares its names once, and so does a function its parameters. -/
def Node.DeclaresOnce : Node → Prop
  | .expr (.block _ ss) => (ss.flatMap Stmt.declared).Nodup
  | .decl (.fn _ _ _ ps _) => (ps.map Token.text).Nodup
  | _ => True

/-- In the root, in each block and among the parameters of each function all names are distinct. -/
structure Program.DeclaresOnce (p : Program) : Prop where
  root : (p.decls.map fun d => d.name.text).Nodup
  inside : ∀ a ∈ p.nodes, a.DeclaresOnce

/-- Around the declarations of a program whose root is the scope with the number `m`. -/
def Surroundings.root (m : Nat) : Surroundings := ⟨⟨m⟩, none, ⟨m + 1⟩⟩

/-- The symbols of a program whose root is the scope with the number `m`: a variable comes behind
all that is bound in its initial value, a function before its parameters and these before all that
is bound in its body. -/
def Program.bindings (T : TypeTable) (m : Nat) (p : Program) : List (ScopeId × Symbol) :=
  (Decl.visitsAll (.root m) p.decls).flatMap (Visit.binds T)

/-- The symbols `bs` are bound in the scope `k.scope`, there under the names `ns`, and in the `n`
scopes that are opened next. None of them clash if the names `ns` are distinct and `P` holds. -/
structure Surroundings.Declares (k : Surroundings) (n : Nat) (ns : List String) (P : Prop)
    (bs : List (ScopeId × Symbol)) : Prop where
  within : ∀ b ∈ bs, b.1 = k.scope ∨ k.next.index ≤ b.1.index ∧ b.1.index < k.next.index + n
  names {x : String} : (∃ b ∈ bs, b.1 = k.scope ∧ b.2.name = x) ↔ x ∈ ns
  apart : bs.Pairwise (fun b b' => ¬ Clash b b') ↔ ns.Nodup ∧ P

namespace Surroundings.Declares

variable {k k' : Surroundings} {n m : Nat} {ns ms : List String} {P Q : Prop}
  {bs bs' : List (ScopeId × Symbol)}

theorem congr (h : k.Declares n ns P bs) (hPQ : P ↔ Q) : k.Declares n ns Q bs :=
  ⟨h.within, h.names, h.apart.trans (and_congr_right' hPQ)⟩

theorem of_scope (h : ∀ b ∈ bs, b.1 = k.scope) (hns : (bs.map fun b => b.2.name) = ns) :
    k.Declares 0 ns True bs where
  within b hb := .inl (h b hb)
  names {x} := by
    rw [← hns, List.mem_map]
    exact exists_congr fun b => and_congr_right fun hb => and_iff_right (h b hb)
  apart := by
    rw [← hns, and_true, List.Nodup, List.pairwise_map]
    refine List.Pairwise.iff_of_mem fun {b b'} hb hb' => ?_
    rw [Clash, and_iff_right ((h b hb).trans (h b' hb').symm)]

theorem nil (k : Surroundings) : k.Declares 0 [] True [] := .of_scope (by simp) rfl

theorem single (k : Surroundings) (a : Symbol) : k.Declares 0 [a.name] True [(k.scope, a)] :=
  .of_scope (by simp) rfl

theorem parameters (k : Surroundings) (ps : List Token) (ts : List TypeId) :
    k.Declares 0 (ps.map Token.text) True
      (ps.mapIdx fun i p => (k.scope, ⟨.var, p.text, p.place, p.place, false, ts[i]?⟩)) := by
  refine .of_scope (fun b hb => ?_) ?_
  · obtain ⟨i, hi, rfl⟩ := List.mem_mapIdx.mp hb
    rfl
  · refine List.ext_getElem? fun i => ?_
    rw [List.getElem?_map, List.getElem?_mapIdx, List.getElem?_map, Option.map_map]
    rfl

/-- Of what is bound one after the other, only the names in the scope itself can clash. -/
theorem append (hk : k.scope.index < k.next.index) (h : k.Declares n ns P bs)
    (h' : (k.after n).Declares m ms Q bs') :
    k.Declares (n + m) (ns ++ ms) (P ∧ Q) (bs ++ bs') := by
  have hnext : (k.after n).next.index = k.next.index + n := rfl
  have hcross : (∀ b ∈ bs, ∀ b' ∈ bs', ¬ Clash b b') ↔ ns.Disjoint ms := by
    constructor
    · intro hbs x hx hx'
      obtain ⟨b, hb, hscope, hname⟩ := h.names.mpr hx
      obtain ⟨b', hb', hscope', hname'⟩ := h'.names.mpr hx'
      exact hbs b hb b' hb' ⟨hscope.trans hscope'.symm, hname.trans hname'.symm⟩
    · rintro hdisjoint b hb b' hb' ⟨hscope, hname⟩
      have hindex := congrArg ScopeId.index hscope
      -- the scopes opened first are older than those opened then
      rcases h.within b hb with hown | ⟨hle, hlt⟩
      · rcases h'.within b' hb' with hown' | ⟨hle', -⟩
        · exact hdisjoint (h.names.mp ⟨b, hb, hown, hname⟩) (h'.names.mp ⟨b', hb', hown', rfl⟩)
        · have hold := congrArg ScopeId.index hown
          omega
      · rcases h'.within b' hb' with hown' | ⟨hle', -⟩
        · have hold : b'.1.index = k.scope.index := congrArg ScopeId.index hown'
          omega
        · omega
  refine ⟨fun b hb => ?_, fun {x} => ?_, ?_⟩
  · rcases List.mem_append.mp hb with hb | hb
    · exact (h.within b hb).imp_right fun ⟨hle, hlt⟩ => ⟨hle, by omega⟩
    · exact (h'.within b hb).imp_right fun ⟨hle, hlt⟩ => ⟨by omega, by omega⟩
  · rw [List.mem_append, ← h.names, ← h'.names, ← exists_or]
    refine exists_congr fun b => ?_
    rw [List.mem_append, or_and_right]
    rfl
  · rw [List.pairwise_append, List.nodup_append', h.apart, h'.apart, hcross]
    tauto

theorem append_visits {T : TypeTable} {vs us : List Visit} (hk : k.scope.index < k.next.index)
    (h : k.Declares n ns P (vs.flatMap (Visit.binds T)))
    (h' : (k.after n).Declares m ms Q (us.flatMap (Visit.binds T))) :
    k.Declares (n + m) (ns ++ ms) (P ∧ Q) ((vs ++ us).flatMap (Visit.binds T)) := by
  rw [List.flatMap_append]
  exact h.append hk h'

/-- What is bound in a scope that is opened in `k` is not bound in `k`. -/
theorem opening (hk : k.scope.index < k.next.index) (h : k'.Declares n ns P bs)
    (hscope : k'.scope = k.next) (hnext : k'.next.index = k.next.index + 1) :
    k.Declares (1 + n) [] (ns.Nodup ∧ P) bs := by
  have hwithin : ∀ b ∈ bs, k.next.index ≤ b.1.index ∧ b.1.index < k.next.index + (1 + n) := by
    intro b hb
    rcases h.within b hb with hown | ⟨hle, hlt⟩
    · rw [hown, hscope]
      omega
    · omega
  refine ⟨fun b hb => .inr (hwithin b hb), fun {x} => ?_, ?_⟩
  · refine iff_of_false ?_ List.not_mem_nil
    rintro ⟨b, hb, hown, -⟩
    have hle := (hwithin b hb).1
    rw [hown] at hle
    omega
  · rw [h.apart, and_iff_right List.nodup_nil]

end Surroundings.Declares

open Surroundings

/-- What a node binds, wherever it stands. -/
def Node.Declared (T : TypeTable) : Node → Prop
  | .expr e => ∀ k : Surroundings, k.scope.index < k.next.index →
      k.Declares e.opened [] ((Node.expr e).Everywhere DeclaresOnce)
        ((e.visits k).flatMap (Visit.binds T))
  | .exprs es => ∀ k : Surroundings, k.scope.index < k.next.index →
      k.Declares (Expr.openedAll es) [] ((Node.exprs es).Everywhere DeclaresOnce)
        ((Expr.visitsAll k es).flatMap (Visit.binds T))
  | .stmt s => ∀ k : Surroundings, k.scope.index < k.next.index →
      k.Declares s.opened s.declared ((Node.stmt s).Everywhere DeclaresOnce)
        ((s.visits k).flatMap (Visit.binds T))
  | .stmts ss => ∀ k : Surroundings, k.scope.index < k.next.index →
      k.Declares (Stmt.openedAll ss) (ss.flatMap Stmt.declared)
        ((Node.stmts ss).Everywhere DeclaresOnce) ((Stmt.visitsAll k ss).flatMap (Visit.binds T))
  | .decl d => ∀ k : Surroundings, k.scope.index < k.next.index →
      k.Declares d.opened [d.name.text] ((Node.decl d).Everywhere DeclaresOnce)
        ((d.visits k).flatMap (Visit.binds T))
  | _ => True

theorem Node.hereditary_declared (T : TypeTable) : Node.Hereditary (Node.Declared T) where
  leaf k hk := (Declares.nil k).congr (by simp [DeclaresOnce])
  binary ha hb k hk :=
    ((ha k hk).append_visits hk (hb (k.after _) (lt_after hk _))).congr (by simp [DeclaresOnce])
  unary ha k hk := (ha k hk).congr (by simp [DeclaresOnce])
  call hf has k hk :=
    ((hf k hk).append_visits hk (has (k.after _) (lt_after hk _))).congr (by simp [DeclaresOnce])
  block hss k hk :=
    (Declares.opening hk (hss k.inBlock k.lt_inBlock) rfl rfl).congr (by simp [DeclaresOnce])
  ifThen hc ha k hk :=
    ((hc k hk).append_visits hk (ha (k.after _) (lt_after hk _))).congr (by simp [DeclaresOnce])
  ifElse {_ c a b} hc ha hb k hk := by
    have hk₁ := lt_after hk c.opened
    have hbranches := (ha _ hk₁).append_visits hk₁ (hb _ (lt_after hk₁ a.opened))
    exact ((hc k hk).append_visits hk hbranches).congr (by simp [DeclaresOnce])
  result ha k hk := (ha k hk).congr (by simp [DeclaresOnce])
  noExpr k hk := (Declares.nil k).congr (by simp)
  moreExprs he hes k hk :=
    ((he k hk).append_visits hk (hes (k.after _) (lt_after hk _))).congr (by simp)
  evaluated he k hk := (he k hk).congr (by simp [DeclaresOnce])
  assigned hl he k hk :=
    ((hl k hk).append_visits hk (he (k.after _) (lt_after hk _))).congr (by simp [DeclaresOnce])
  declared hd k hk := (hd k hk).congr (by simp [DeclaresOnce])
  noStmt k hk := (Declares.nil k).congr (by simp)
  moreStmts hs hss k hk :=
    ((hs k hk).append_visits hk (hss (k.after _) (lt_after hk _))).congr (by simp)
  var {site n g e p} he k hk := by
    have hname : (k.after e.opened).Declares 0 [n.text] True
        ([⟨k, .decl (.var site n g e p)⟩].flatMap (Visit.binds T)) :=
      .single (k.after e.opened) ⟨.var, n.text, n.place, p, k.isGlobal, g⟩
    exact ((he k hk).append_visits hk hname).congr (by simp [DeclaresOnce])
  fn {site n g ps e} he k hk := by
    have hparams := Declares.parameters (k.inFunction g) ps (T.argumentsOf g)
    have hbody := he (k.inFunction g) k.lt_inBlock
    have hinside := hparams.append (k := k.inFunction g) k.lt_inBlock hbody
    have hname := Declares.single k ⟨.fn, n.text, n.place, n.place, k.isGlobal, g⟩
    have h := hname.append hk (.opening hk hinside rfl rfl)
    rw [Nat.zero_add, Nat.zero_add] at h
    exact h.congr (by simp [DeclaresOnce])

theorem Decl.declares_visitsAll (T : TypeTable) {k : Surroundings}
    (hk : k.scope.index < k.next.index) (ds : List Decl) :
    ∃ n, k.Declares n (ds.map fun d => d.name.text) ((Node.decls ds).Everywhere Node.DeclaresOnce)
      ((Decl.visitsAll k ds).flatMap (Visit.binds T)) := by
  induction ds generalizing k with
  | nil => exact ⟨0, (Declares.nil k).congr (by simp)⟩
  | cons d ds ih =>
    obtain ⟨n, hds⟩ := ih (lt_after hk d.opened)
    have hd := (Node.hereditary_declared T).decl d k hk
    exact ⟨d.opened + n, (hd.append_visits hk hds).congr (by simp)⟩

namespace Program

theorem index_le_of_mem_bindings {T : TypeTable} {m : Nat} {p : Program} {b : ScopeId × Symbol}
    (h : b ∈ p.bindings T m) : m ≤ b.1.index := by
  obtain ⟨n, hbindings⟩ := Decl.declares_visitsAll T (k := .root m) (Nat.lt_succ_self m) p.decls
  rcases hbindings.within b h with hroot | ⟨hle, -⟩
  · exact Nat.le_of_eq (congrArg ScopeId.index hroot).symm
  · exact Nat.le_of_succ_le hle

/-- No two symbols of a program clash if and only if all names that are declared side by side are
distinct. -/
theorem pairwise_bindings_iff (T : TypeTable) (m : Nat) (p : Program) :
    (p.bindings T m).Pairwise (fun b b' => ¬ Clash b b') ↔ p.DeclaresOnce := by
  obtain ⟨n, hbindings⟩ := Decl.declares_visitsAll T (k := .root m) (Nat.lt_succ_self m) p.decls
  exact hbindings.apart.trans ⟨fun ⟨hroot, hinside⟩ => ⟨hroot, hinside⟩,
    fun ⟨hroot, hinside⟩ => ⟨hroot, hinside⟩⟩

end Program

end FrontEnd
