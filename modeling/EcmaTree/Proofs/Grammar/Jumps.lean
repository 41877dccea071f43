import EcmaTree.Proofs.Grammar.Legality
import EcmaTree.Proofs.Tree.Enclosure

/-!
# Returns, yields and jumps have what they ask for

The scope of a parse is saved, emptied and restored around functions, loops and labels. What it
has allowed is stated here of the finished tree alone: each `return` and `yield` lies in a
function that it can leave, and each jump lies in a loop or in a statement with its label, in
the same function.
-/

namespace EcmaTree

open EcmaTree.Grammar Node

/-- The tree `root` holds no `return`, `yield`, jump or label that is out of place. -/
structure Node.IsContextLegal (options : ParseOptions) (root : (c : Category) × Node c) : Prop where
  return_legal : ∀ {span argument}, Occurs root ⟨_, .returnStatement span argument⟩ →
    options.allowReturnOutsideFunction = true ∨
      IsEnclosed root IsBodyOf ⟨_, .returnStatement span argument⟩
  yield_legal : ∀ {span argument delegate}, Occurs root ⟨_, .yield span argument delegate⟩ →
    IsEnclosed root (fun f b => IsBodyOf f b ∧ f.2.isGenerator = true)
      ⟨_, .yield span argument delegate⟩
  break_legal : ∀ {span}, Occurs root ⟨_, .breakStatement span none⟩ →
    IsEnclosed root IsRepeatedBy ⟨_, .breakStatement span none⟩
  continue_legal : ∀ {span}, Occurs root ⟨_, .continueStatement span none⟩ →
    IsEnclosed root IsRepeatedBy ⟨_, .continueStatement span none⟩
  break_label_legal : ∀ {span label}, Occurs root ⟨_, .breakStatement span (some label)⟩ →
    IsEnclosed root (IsLabeledBy label.name) ⟨_, .breakStatement span (some label)⟩
  continue_label_legal : ∀ {span label}, Occurs root ⟨_, .continueStatement span (some label)⟩ →
    IsEnclosed root (fun x b => IsLabeledBy label.name x b ∧ b.2.isLoop = true)
      ⟨_, .continueStatement span (some label)⟩
  label_legal : ∀ {span label body}, Occurs root ⟨_, .labeledStatement span label body⟩ →
    ¬IsEnclosed root (IsLabeledBy label.name) ⟨_, .labeledStatement span label body⟩

namespace Jumps

variable {options : ParseOptions} {x y : Site} {name : String}

/-- A label of a jump is that of a statement around the jump. -/
theorem isEnclosed_of_label {isLoop : Bool} (hx : x.scope.labels = []) (h : x.Occurs y)
    (hl : ⟨some name, isLoop⟩ ∈ y.scope.labels) :
    IsEnclosed x.bare (fun z b => IsLabeledBy name z b ∧ b.2.isLoop = isLoop) y.bare := by
  obtain ⟨z, b, hz, hbrings, hb⟩ := Site.exists_brings hx h hl
  rcases hbrings with ⟨⟨⟩, -⟩ | ⟨name', hname, hlabel⟩
  cases hname
  exact ⟨z, b, hz, ⟨hlabel, rfl⟩, hb⟩

/-- The label of a loop body is that of a loop around the jump. -/
theorem isEnclosed_of_loop (hx : x.scope.labels = []) (h : x.Occurs y)
    (hl : ⟨none, true⟩ ∈ y.scope.labels) : IsEnclosed x.bare IsRepeatedBy y.bare := by
  obtain ⟨z, b, hz, hbrings, hb⟩ := Site.exists_brings hx h hl
  rcases hbrings with ⟨-, hloop⟩ | ⟨name', hname, -⟩
  · exact ⟨z, b, hz, hloop, hb⟩
  · cases hname

/-- A jump without a label has found a loop. -/
theorem isEnclosed_of_any {jump : Jump} (hx : x.scope.labels = []) (h : x.Occurs y)
    (hy : y.category.holdsStatements = true) (hn : y.node.isLoop = false)
    (hany : y.scope.labels.any (isJumpTarget jump none) = true) :
    IsEnclosed x.bare IsRepeatedBy y.bare := by
  obtain ⟨l, hl, hloop⟩ := List.any_eq_true.mp hany
  exact isEnclosed_of_loop hx h (Site.mem_labels_of_isLoop hx h hy hn hl hloop)

/-- A jump with a label has found that label, and `continue` has found it on a loop. -/
theorem exists_label_of_any {σ : Scope} {jump : Jump}
    (hany : σ.labels.any (isJumpTarget jump (some name)) = true) :
    ∃ isLoop, ⟨some name, isLoop⟩ ∈ σ.labels ∧ (jump = .continue → isLoop = true) := by
  obtain ⟨⟨_, isLoop⟩, hl, htarget⟩ := List.any_eq_true.mp hany
  simp only [isJumpTarget, Bool.and_eq_true, beq_iff_eq, Bool.or_eq_true] at htarget
  obtain ⟨rfl, hloop⟩ := htarget
  exact ⟨isLoop, hl, fun hjump => hloop.resolve_right (by simp [hjump])⟩

/-- The sites of a tree that starts outside of functions and labels make the tree legal. -/
theorem isContextLegal_of_isLegal (hlabels : x.scope.labels = [])
    (hfunction : x.scope.inFunction = false ∧ x.scope.inGenerator = false)
    (h : x.node.IsLegal options x.scope) : IsContextLegal options x.bare where
  return_legal hocc := by
    obtain ⟨τ, hsite⟩ := exists_site_of_occurs x.scope hocc
    refine (h _ hsite).symm.imp_right fun hf => ?_
    obtain ⟨f, b, hf, hfb, -, hb⟩ := Site.exists_function hfunction hsite (.inl hf)
    exact ⟨f, b, hf, hfb, hb⟩
  yield_legal hocc := by
    obtain ⟨τ, hsite⟩ := exists_site_of_occurs x.scope hocc
    have hgenerator : τ.inGenerator = true := h _ hsite
    obtain ⟨f, b, hf, hfb, hg, hb⟩ := Site.exists_function hfunction hsite (.inr hgenerator)
    exact ⟨f, b, hf, ⟨hfb, hg.trans hgenerator⟩, hb⟩
  break_legal hocc := by
    obtain ⟨τ, hsite⟩ := exists_site_of_occurs x.scope hocc
    exact isEnclosed_of_any hlabels hsite rfl rfl (h _ hsite)
  continue_legal hocc := by
    obtain ⟨τ, hsite⟩ := exists_site_of_occurs x.scope hocc
    exact isEnclosed_of_any hlabels hsite rfl rfl (h _ hsite)
  break_label_legal hocc := by
    obtain ⟨τ, hsite⟩ := exists_site_of_occurs x.scope hocc
    obtain ⟨isLoop, hl, -⟩ := exists_label_of_any (h _ hsite)
    obtain ⟨z, b, hz, ⟨hlabel, -⟩, hb⟩ := isEnclosed_of_label hlabels hsite hl
    exact ⟨z, b, hz, hlabel, hb⟩
  continue_label_legal hocc := by
    obtain ⟨τ, hsite⟩ := exists_site_of_occurs x.scope hocc
    obtain ⟨isLoop, hl, hloop⟩ := exists_label_of_any (h _ hsite)
    exact isEnclosed_of_label hlabels hsite (hloop rfl ▸ hl)
  label_legal {span label body} hocc := by
    rintro ⟨z, b, hz, hlabel, hb⟩
    -- The outer label is in scope at the inner statement, which was read with a new label.
    obtain ⟨τ, hzsite⟩ := exists_site_of_occurs x.scope hz
    obtain ⟨bsite, hbelow, rfl, hl⟩ := Site.exists_below_of_isLabeledBy (x := ⟨τ, z.2⟩) hlabel
    obtain ⟨⟨υ, _⟩, hysite, hy, hlabels⟩ := Site.exists_within hb
    cases hy
    exact h _ ((hzsite.tail hbelow).trans hysite) _ (hlabels _ hl) rfl

end Jumps

/-- In an accepted program every `return` lies in a function unless the options allow it outside,
every `yield` lies in a generator, and every jump and label is in place. -/
theorem isContextLegal_of_parse {options : ParseOptions} {text : List Char} {file : File}
    (h : (parse options text).result = .ok file) :
    IsContextLegal options ⟨_, file.program.body⟩ :=
  Jumps.isContextLegal_of_isLegal (x := ⟨file.scope options, file.program.body⟩) rfl ⟨rfl, rfl⟩
    (isLegal_of_parse h)

/-- A generator with a jump out of a block and one back to the loop around it. -/
theorem isContextLegal_of_parse_generator : ∃ file,
    (parse {} "function* g() { a: for (;;) { b: { break b } continue a } yield }".toList).result =
      .ok file ∧ IsContextLegal {} ⟨_, file.program.body⟩ := by
  obtain ⟨file, h⟩ := exists_of_isOk (x := (parse {}
    "function* g() { a: for (;;) { b: { break b } continue a } yield }".toList).result)
    (by decide +kernel)
  exact ⟨file, h, isContextLegal_of_parse h⟩

end EcmaTree
