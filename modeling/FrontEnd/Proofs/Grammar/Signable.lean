import Mathlib
import FrontEnd.Proofs.Grammar.Reading
import FrontEnd.Proofs.Syntax.Rendering
import FrontEnd.Proofs.Syntax.Signing
import FrontEnd.Proofs.Types.Held

/-! A program in which a variable gets a signature could have been read, too, from tokens in which
the signature is written down. -/

namespace FrontEnd

variable {T : TypeTable} {t : TypeId} {w u : List Token} {a : Node}

theorem exists_reads_types {ts : List TypeId} (h : ∀ t ∈ ts, ∃ w, Reads T w (.type t)) :
    ∃ w, Reads T w (.types ts) := by
  induction ts with
  | nil => exact ⟨[], .noType⟩
  | cons t ts ih =>
    obtain ⟨⟨w, hw⟩, hts⟩ := List.forall_mem_cons.mp h
    obtain ⟨v, hv⟩ := ih hts
    cases ts with
    | nil => exact ⟨w, .lastType hw⟩
    | cons s ts => exact ⟨w ++ ⟨.comma, .none, .origin⟩ :: v, .moreTypes rfl hw hv⟩

theorem TypeTable.Reachable.eq_primitive (hT : T.Reachable) {p : Primitive}
    (ht : T.shape? t = some (.primitive p)) : t = primitive p := by
  induction hT with
  | initial =>
    obtain ⟨q, rfl, hq⟩ := shape?_initial ht
    cases hq
    rfl
  | pointer _ _ ih | function _ _ _ ih =>
    rcases shape?_enter_cases ht with ⟨-, hs⟩ | ht
    · cases hs
    · exact ih ht

theorem TypeTable.Reachable.exists_reads (hT : T.Reachable) (ht : T.Holds t) :
    ∃ w, Reads T w (.type t) := by
  generalize hn : t.index = n
  induction n using Nat.strongRecOn generalizing t with
  | ind n ih =>
    obtain ⟨s, hs⟩ := ht.exists_shape?
    have hpart : ∀ u ∈ s.parts, ∃ w, Reads T w (.type u) := fun u hu =>
      ih u.index (hn ▸ hT.index_lt_of_mem_parts hs hu) (hT.holds_of_mem_parts hs hu) rfl
    cases s with
    | primitive p =>
      obtain rfl := hT.eq_primitive hs
      exact ⟨[⟨p.kind, .none, .origin⟩], .primitive (by cases p <;> rfl)⟩
    | pointer u =>
      obtain ⟨w, hw⟩ := hpart u (List.mem_singleton_self u)
      exact ⟨⟨.star, .none, .origin⟩ :: w, .pointer rfl hs hw⟩
    | function as r =>
      obtain ⟨w, hw⟩ := exists_reads_types fun a ha => hpart a (List.mem_append_left _ ha)
      obtain ⟨v, hv⟩ := hpart r (List.mem_append_right _ (List.mem_singleton_self r))
      exact ⟨_, .function (o := ⟨.openBracket, .none, .origin⟩)
        (c := ⟨.closeBracket, .none, .origin⟩) (k := ⟨.arrow, .none, .origin⟩) rfl rfl rfl hs hw hv⟩

section Sign

variable {q : Position}

/-- A signature, or what stands in its place in front of a variable. -/
theorem exists_reads_signature {g : Option TypeId} (hg : Reads T w (.signature g))
    (hu : Reads T u (.type t)) (k : Token) :
    ∃ v, Reads T v (.signature ((Rule.site (w.headD k).place).sign q t g)) ∧
      (v.headD k).place = (w.headD k).place := by
  cases hg with
  | signed hk h => exact ⟨_, .signed hk h, rfl⟩
  | unsigned =>
    by_cases hq : k.place = q
    · rw [Site.sign_of_place hq]
      exact ⟨_, .signed (k := ⟨.kwOf, .none, k.place⟩) rfl hu, rfl⟩
    · rw [Site.sign_of_ne hq]
      exact ⟨[], .unsigned, rfl⟩

theorem Reads.exists_sign (h : Reads T w a) (hu : Reads T u (.type t)) :
    ∃ v, Reads T v (a.sign q t) := by
  induction h with
  | primitive hk => exact ⟨_, .primitive hk⟩
  | pointer hk ht h _ => exact ⟨_, .pointer hk ht h⟩
  | function ho hc hk ht h h' _ _ => exact ⟨_, .function ho hc hk ht h h'⟩
  | noType => exact ⟨_, .noType⟩
  | lastType h _ => exact ⟨_, .lastType h⟩
  | moreTypes hk h h' _ _ => exact ⟨_, .moreTypes hk h h'⟩
  | unsigned => exact ⟨_, .unsigned⟩
  | signed hk h _ => exact ⟨_, .signed hk h⟩
  | literal ht => exact ⟨_, .literal ht⟩
  | group ho hc _ ih => exact ih.imp' _ fun _ => .group ho hc
  | block ho hc _ ih => exact ih.imp' _ fun _ => .block ho hc
  | ifThen hi hk _ _ ih ih' =>
    obtain ⟨_, hc⟩ := ih
    obtain ⟨_, ha⟩ := ih'
    exact ⟨_, .ifThen hi hk hc ha⟩
  | ifElse hi hk hl _ _ _ ih ih' ih'' =>
    obtain ⟨_, hc⟩ := ih
    obtain ⟨_, ha⟩ := ih'
    obtain ⟨_, hb⟩ := ih''
    exact ⟨_, .ifElse hi hk hl hc ha hb⟩
  | returned hk _ ih => exact ih.imp' _ fun _ => .returned hk
  | yielded hk _ ih => exact ih.imp' _ fun _ => .yielded hk
  | prefixed hk _ ih => exact ih.imp' _ fun _ => .prefixed hk
  | binary hk _ _ ih ih' =>
    obtain ⟨_, ha⟩ := ih
    obtain ⟨_, hb⟩ := ih'
    exact ⟨_, .binary hk ha hb⟩
  | @call _ _ _ _ f as ho hc _ _ ih ih' =>
    obtain ⟨_, hf⟩ := ih
    obtain ⟨_, has⟩ := ih'
    have hcall := Reads.call ho hc hf has
    rw [Expr.place_sign] at hcall
    exact ⟨_, hcall⟩
  | noExpr => exact ⟨_, .noExpr⟩
  | lastExpr _ ih => exact ih.imp' _ fun _ => .lastExpr
  | moreExprs hk _ _ ih ih' =>
    obtain ⟨_, he⟩ := ih
    obtain ⟨_, hes⟩ := ih'
    exact ⟨_, .moreExprs hk he hes⟩
  | @evaluated _ _ e hc _ ih =>
    obtain ⟨_, he⟩ := ih
    have hstmt := Reads.evaluated hc he
    rw [Expr.place_sign] at hstmt
    exact ⟨_, hstmt⟩
  | @assigned _ _ _ _ _ l e hk hc hn _ _ ih ih' =>
    obtain ⟨_, hl⟩ := ih
    obtain ⟨_, he⟩ := ih'
    have hstmt := Reads.assigned hk hc ((Expr.name?_sign l).trans hn) hl he
    rw [Expr.place_sign] at hstmt
    exact ⟨_, hstmt⟩
  | @declared _ d _ ih =>
    obtain ⟨_, hd⟩ := ih
    have hstmt := Reads.declared hd
    rw [Decl.place_sign] at hstmt
    exact ⟨_, hstmt⟩
  | noStmt => exact ⟨_, .noStmt⟩
  | moreStmts _ _ ih ih' =>
    obtain ⟨_, hs⟩ := ih
    obtain ⟨_, hss⟩ := ih'
    exact ⟨_, .moreStmts hs hss⟩
  | @var k n a c w v g e hk hn ha hc hg _ _ ih =>
    obtain ⟨_, he⟩ := ih
    obtain ⟨x, hx, hplace⟩ := exists_reads_signature (q := q) hg hu k
    have hvar := Reads.var hk hn ha hc hx he
    rw [hplace] at hvar
    exact ⟨_, hvar⟩
  | fn hk hn ho hc ha hf hfits hg hps _ _ ih =>
    obtain ⟨_, he⟩ := ih
    exact ⟨_, .fn hk hn ho hc ha hf hfits hg hps he⟩
  | noDecl => exact ⟨_, .noDecl⟩
  | moreDecls _ _ ih ih' =>
    obtain ⟨_, hd⟩ := ih
    obtain ⟨_, hds⟩ := ih'
    exact ⟨_, .moreDecls hd hds⟩

end Sign

end FrontEnd
