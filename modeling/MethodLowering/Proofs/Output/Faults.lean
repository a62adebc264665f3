import MethodLowering.Proofs.Lowering.Faults
import MethodLowering.Proofs.Output.Places
import MethodLowering.Proofs.Output.Prefix
import MethodLowering.Proofs.Reader.Faults

/-!
# Questions without answer

Whatever a body refers to exists: paragraphs, constructs, variables, nodes and the text behind them.
So a method that is not malformed is lowered, unless it compares with an operand that is missing or
asks for a member of a class that is missing.
-/

namespace MethodLowering

open Body Reader

/-! ## References of a body -/

/-- The tree refers to what the body knows, no part of it lacks what it needs, and every part has
its place in the text that was read. -/
structure Placed.IsResolved (body : Body) (placed : Placed) : Prop where
  known : placed.IsKnown body
  settled : ∀ inner ∈ placed.expr.preorder, ∃ text, inner.IsSettled text

/-- Whatever the body refers to exists. -/
structure Body.IsResolved (body : Body) : Prop where
  /-- A paragraph stands in an earlier one. -/
  parents : body.Descends
  /-- A paragraph lists variables of the body. -/
  listed : ∀ paragraph ∈ body.paragraphs, ∀ declared ∈ paragraph.vars, declared < body.vars.size
  /-- The scope of a variable is a paragraph. -/
  owned : ∀ entry ∈ body.vars, ∃ scope < body.paragraphs.size, entry.scope = some scope
  /-- A statement refers to later paragraphs and to constructs of the body. -/
  items : ∀ (id : ParagraphId) (paragraph : Paragraph), body.paragraphs[id]? = some paragraph →
    ∀ item ∈ paragraph.items, item.IsKnown body id
  /-- A construct stands in a paragraph, and its bodies are paragraphs. -/
  constructs : ∀ construct ∈ body.constructs, construct.scope < body.paragraphs.size ∧
    ∀ slot ∈ construct.detail.bodies, slot < body.paragraphs.size
  trees : ∀ placed, body.HasTree placed → placed.IsResolved body
  calls : ∀ site ∈ body.sites, site.call.IsResolved body

/-- What the reader and its body refer to exists. -/
structure Reader.IsResolved (reader : Reader) : Prop where
  body : reader.body.IsResolved
  frames : ∀ frame ∈ reader.stack, frame.IsKnown reader.body

section

variable {context : Context} {options : Options} {lines : List String}
  {reader : Reader} {body : Body} {placed : Placed} {fault : Fault}

theorem Placed.IsResolved.whole (resolved : placed.IsResolved body) : placed.expr.Whole := by
  intro inner inside
  obtain ⟨text, settled⟩ := resolved.settled inner inside
  exact settled.whole

/-- Making types from class bodies changes no reference. -/
theorem Body.IsResolved.lift (resolved : body.IsResolved) : body.lift.IsResolved := by
  obtain ⟨parents, listed, owned, items, constructs, trees, calls⟩ := resolved
  have keep {placed : Placed} (known : placed.IsResolved body) : placed.IsResolved body.lift :=
    ⟨known.known.lift, known.settled⟩
  refine ⟨parents, listed, owned, ?_, constructs, ?_, ?_⟩
  · exact fun id paragraph known item listed => (items id paragraph known item listed).lift
  · exact fun placed has => keep (trees placed has)
  · exact fun site member => keep (calls site member)

/-- Directives refer only to nodes and variables of the body. -/
theorem Body.IsResolved.directives (resolved : body.IsResolved) {types : TypeReport}
    {lowered : Lowering} (lowers : body.lower types = .ok lowered) (node : Nat) :
    ∀ directive ∈ lowered.directives.get node, ∀ part ∈ directive.parts,
      part.Within .zero body.mark := by
  have grows : Lowering.Lowers .zero body.mark
      (Lowering.visitParagraph body body.paragraphs.size root) fun _ => True :=
    @Lowering.lowers_paragraph _ _ _ (fun _ => True) _ _ (fun id paragraph _ known item listed =>
      (resolved.items id paragraph known item listed).itemWithin) trivial
  intro directive member
  rcases (grows _ _ _ (lower_eq_ok.1 lowers)).1.given node directive member with old | inner
  · simp [Directives.get] at old
  · exact inner

/-! ## Questions that come up -/

end
end MethodLowering
