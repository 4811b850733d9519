import FrontEnd.Proofs.Syntax.Mapping
import FrontEnd.Proofs.Syntax.Outlines

/-! Outlines of programs in which some tokens carry another text. They are the same but for the
words that show these tokens. -/

namespace FrontEnd

/-- The second text is the first one with `new` in some places in which `old` stands. -/
inductive Reworded (old new : String) : String → String → Prop
  | refl (s : String) : Reworded old new s s
  | word : Reworded old new old new
  | append {s s' t t' : String} : Reworded old new s s' → Reworded old new t t' →
      Reworded old new (s ++ t) (s' ++ t')

/-- A token is left alone, or it carries `old` and gets `new` to carry. -/
def Rewords (old new : String) (f : Token → Token) : Prop :=
  ∀ k, f k = k ∨ k.payload = .text old ∧ f k = { k with payload := .text new }

structure OutlineLine.Reworded (old new : String) (l l' : OutlineLine) : Prop where
  depth : l.depth = l'.depth
  text : FrontEnd.Reworded old new l.text l'.text

section Outlines

variable {old new : String} {f : Token → Token} {T : TypeTable}

theorem Reworded.join {ss ss' : List String} (h : List.Forall₂ (Reworded old new) ss ss') :
    Reworded old new (String.join ss) (String.join ss') := by
  induction h with
  | nil => exact .refl _
  | cons hs _ ih =>
    rw [String.join_cons, String.join_cons]
    exact hs.append ih

namespace OutlineLine

theorem Reworded.refl (l : OutlineLine) : l.Reworded old new l := ⟨rfl, .refl _⟩

theorem Reworded.all (ls : List OutlineLine) : List.Forall₂ (Reworded old new) ls ls :=
  List.forall₂_same.mpr fun l _ => .refl l

theorem Reworded.shown {l l' : OutlineLine} (h : l.Reworded old new l') :
    FrontEnd.Reworded old new l.shown l'.shown := by
  rw [OutlineLine.shown, OutlineLine.shown, h.depth]
  exact ((FrontEnd.Reworded.refl _).append h.text).append (.refl _)

end OutlineLine

theorem ExprSite.reworded_line (s : ExprSite) (depth : Nat) {x y : String}
    (h : Reworded old new x y) : (s.line T depth x).Reworded old new (s.line T depth y) := by
  unfold ExprSite.line
  split
  · exact ⟨rfl, h⟩
  · exact ⟨rfl, (h.append (.refl _)).append (.refl _)⟩

variable (hf : Rewords old new f)
include hf

theorem Rewords.text (k : Token) : Reworded old new k.text (f k).text := by
  rcases hf k with h | ⟨hk, h⟩
  · rw [h]
    exact .refl _
  · rw [h, Token.text, hk]
    exact .word

theorem Rewords.shown (k : Token) : Reworded old new k.shown (f k).shown := by
  rcases hf k with h | ⟨hk, h⟩
  · rw [h]
    exact .refl _
  · rw [h, Token.shown, hk, Token.shown]
    dsimp only
    split
    · exact ((Reworded.refl _).append .word).append (.refl _)
    · exact .word

/-- The lines of the node are the same but for the words. -/
def Node.OutlineReworded (T : TypeTable) (old new : String) (f : Token → Token) (a : Node) : Prop :=
  ∀ depth n, List.Forall₂ (OutlineLine.Reworded old new) (a.outline T depth n)
    ((a.map (.ofToken f)).outline T depth n)

theorem Node.hereditary_outlineReworded : Hereditary (OutlineReworded T old new f) where
  leaf {site form k} depth n := by
    have htitle : Reworded old new (form.title k) (form.title (f k)) := by
      cases form with
      | literal => exact (Reworded.refl _).append (hf.shown k)
      | access => exact (Reworded.refl _).append (hf.text k)
    exact .cons (site.reworded_line depth htitle) .nil
  binary {site form k a b} iha ihb depth n := by
    have htitle : Reworded old new (form.title ++ k.shown) (form.title ++ (f k).shown) :=
      (Reworded.refl _).append (hf.shown k)
    exact List.rel_append (.cons (site.reworded_line depth htitle)
      (.cons (.refl _) (iha _ 0))) (.cons (.refl _) (ihb _ 0))
  unary {site k a} iha depth n := by
    have htitle : Reworded old new ("Unary expression: " ++ k.shown)
        ("Unary expression: " ++ (f k).shown) := (Reworded.refl _).append (hf.shown k)
    exact .cons (site.reworded_line depth htitle) (iha _ 0)
  call {site e as} ihe ihas depth n :=
    List.rel_append (.cons (site.reworded_line depth (.refl _)) (.cons (.refl _) (ihe _ 0)))
      (ihas _ 0)
  block {site ss} ih depth n := .cons (site.reworded_line depth (.refl _)) (ih _ 0)
  ifThen {site a b} iha ihb depth n :=
    List.rel_append (.cons (site.reworded_line depth (.refl _)) (.cons (.refl _) (iha _ 0)))
      (.cons (.refl _) (ihb _ 0))
  ifElse {site a b c} iha ihb ihc depth n :=
    List.rel_append (List.rel_append (.cons (site.reworded_line depth (.refl _))
      (.cons (.refl _) (iha _ 0))) (.cons (.refl _) (ihb _ 0))) (.cons (.refl _) (ihc _ 0))
  result {site form a} iha depth n :=
    .cons (site.reworded_line depth (.refl _)) (.cons (.refl _) (iha _ 0))
  noExpr _ _ := .nil
  moreExprs ihe ihes depth n :=
    List.rel_append (.cons (.refl _) (ihe _ 0)) (ihes _ (n + 1))
  evaluated ihe depth n := .cons (.refl _) (ihe _ 0)
  assigned ihl ihe depth n :=
    List.rel_append (.cons (.refl _) (.cons (.refl _) (ihl _ 0))) (.cons (.refl _) (ihe _ 0))
  declared ihd depth n := ihd depth 0
  noStmt _ _ := .nil
  moreStmts ihs ihss depth n :=
    List.rel_append (.cons (.refl _) (ihs _ 0)) (ihss _ (n + 1))
  var {site k g e p} ihe depth n := by
    have htitle : Reworded old new ("Variable declaration: " ++ k.text)
        ("Variable declaration: " ++ (f k).text) := (Reworded.refl _).append (hf.text k)
    exact List.rel_append (.cons ⟨rfl, htitle⟩ (OutlineLine.Reworded.all _))
      (.cons (.refl _) (ihe _ 0))
  fn {site k g ps e} ihe depth n := by
    have htitle : Reworded old new ("Function declaration: " ++ k.text)
        ("Function declaration: " ++ (f k).text) := (Reworded.refl _).append (hf.text k)
    have hparams : List.Forall₂ (Reworded old new) (ps.map fun p => " " ++ p.text)
        ((ps.map f).map fun p => " " ++ p.text) := by
      rw [List.map_map, List.forall₂_map_left_iff, List.forall₂_map_right_iff]
      exact List.forall₂_same.mpr fun p _ => (Reworded.refl _).append (hf.text p)
    have htitles : Reworded old new ("Params:" ++ String.join (ps.map fun p => " " ++ p.text))
        ("Params:" ++ String.join ((ps.map f).map fun p => " " ++ p.text)) :=
      (Reworded.refl _).append (.join hparams)
    exact List.rel_append (.cons ⟨rfl, htitle⟩ (.cons ⟨rfl, htitles⟩ (OutlineLine.Reworded.all _)))
      (.cons (.refl _) (ihe _ 0))

/-- The text that shows the program is the same but for the words. -/
theorem Program.reworded_dump (p : Program) :
    Reworded old new (p.dump T) ((p.map (.ofToken f)).dump T) := by
  have hdecls (ds : List Decl) : List.Forall₂ (OutlineLine.Reworded old new)
      (ds.flatMap (Decl.outline T 1))
      ((ds.map (Decl.map (.ofToken f))).flatMap (Decl.outline T 1)) := by
    induction ds with
    | nil => exact .nil
    | cons d ds ih =>
      exact List.rel_append ((Node.hereditary_outlineReworded hf).decl d 1 0) ih
  have hlines : List.Forall₂ (OutlineLine.Reworded old new) (p.outline T)
      ((p.map (.ofToken f)).outline T) := .cons (.refl _) (hdecls p.decls)
  exact .join (List.rel_map (fun _ _ h => h.shown) hlines)

end Outlines

end FrontEnd
