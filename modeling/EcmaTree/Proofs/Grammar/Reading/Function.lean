import EcmaTree.Proofs.Grammar.Reading.Binding

/-!
# What the rules for functions have read

The body of a function is read in a scope of its own, which ends with it. What the function
binds has been checked in the scope at the end of its body.
-/

namespace EcmaTree.Reading

open EcmaTree.Parser EcmaTree.Grammar

variable {d : Descent} {s u : ParseState}

theorem of_block {directives : Bool} {b : Block} (h : block d directives s = .ok b u) :
    ∃ s₁ body, Takes .braceL s s₁ ∧ d (.statements directives .braceR) s₁ = .ok body u ∧
      b = .block (u.spanFrom s.place) (.ofList body) := by
  simp [block] at h
  obtain ⟨s₁, ht, body, h, rfl⟩ := h
  exact ⟨s₁, body, ht, h, rfl⟩

theorem of_parameters {params : List Pattern} (h : parameters d s = .ok params u) :
    ∃ targets, d (.targets .parenR false false true) s = .ok targets u ∧
      params = targets.reduceOption := by
  simpa [parameters] using h

/-- How the body of a function is read, which `body` reads in the scope of the function. -/
inductive FunctionBody {α : Type} (id : Option Identifier) (params : List Pattern)
    (generator isArrow : Bool) (body : Parser α) (s : ParseState) : α → ParseState → Prop
  | intro {result t} (body_ok : body (s.enterFunction generator) = .ok result t)
      (name_ok : ∀ name, id = some name → t.scope.strict = true →
        (Pattern.check true true none (.namePattern name)).1 = .ok ())
      (params_ok : Pattern.checkAll t.scope.strict true
        (if isArrow || t.scope.strict || !params.all Pattern.isName then some [] else none)
        params = .ok ()) :
      FunctionBody id params generator isArrow body s result (t.returnTo s.scope)

theorem of_functionBody {α : Type} {id : Option Identifier} {params : List Pattern}
    {generator isArrow : Bool} {body : Parser α} {result : α}
    (h : functionBody id params generator isArrow body s = .ok result u) :
    FunctionBody id params generator isArrow body s result u := by
  simp [functionBody] at h
  obtain ⟨t, ⟨result, t', hb, h⟩, rfl⟩ := h
  rw [run_eq_ok] at h
  obtain ⟨m, hm, h⟩ := h
  split at hm <;> subst hm <;> simp at h
  · rename_i hs
    obtain ⟨hid, ⟨hp, rfl⟩, rfl⟩ := h
    exact .intro hb (by rintro name ⟨⟩ -; rwa [hs] at hid) (by simpa using hp)
  · rename_i hs
    obtain ⟨⟨hp, rfl⟩, rfl⟩ := h
    exact .intro hb (by rintro name rfl ht; exact (hs name ht rfl).elim) (by simpa using hp)

/-- How the name of a function is read; only a declaration has to have one. -/
inductive FunctionName (isDeclaration : Bool) (s : ParseState) :
    Option Identifier → ParseState → Prop
  | named {id u} (name_ok : identifier false s = .ok id u) :
      FunctionName isDeclaration s (some id) u
  | anonymous (isExpression : isDeclaration = false) : FunctionName isDeclaration s none s

/-- How a function is read after its keyword. -/
inductive Function (d : Descent) (start : Place) (isDeclaration : Bool) (s : ParseState) :
    FunctionParts → ParseState → Prop
  | intro {generator s₁ id s₂ s₃ params s₄ body u} (star : Eats .star generator s s₁)
      (name : FunctionName isDeclaration s₁ id s₂) (opening : Takes .parenL s₂ s₃)
      (params_ok : parameters d s₃ = .ok params s₄)
      (body_ok : FunctionBody id params generator false (block d true) s₄ body u) :
      Function d start isDeclaration s ⟨u.spanFrom start, id, params, body, generator⟩ u

theorem of_function {start : Place} {isDeclaration : Bool} {f : FunctionParts}
    (h : function d start isDeclaration s = .ok f u) : Function d start isDeclaration s f u := by
  simp only [function, ite_bind, bind_eq_ok, eat_eq_ok, expect_eq_ok, finish_eq_ok] at h
  obtain ⟨generator, s₁, hstar, isNamed, s₂, hn, id, s₃, hid, _, s₄, ht, params, s₅, hp, body, s₆,
    hb, _, _, ⟨rfl, rfl⟩, h⟩ := h
  obtain ⟨rfl, rfl⟩ := pure_eq_ok.mp h
  obtain ⟨rfl, hd⟩ : s₂ = s₁ ∧ (isNamed = false → isDeclaration = false) := by
    simp at hn
    grind
  refine .intro hstar ?_ ht hp (of_functionBody hb)
  cases isNamed with
  | true =>
    simp at hid
    obtain ⟨id, hid, rfl⟩ := hid
    exact .named hid
  | false =>
    simp at hid
    obtain ⟨rfl, rfl⟩ := hid
    exact .anonymous (hd rfl)

theorem of_method {generator : Bool} {f : FunctionParts} (h : method d generator s = .ok f u) :
    ∃ s₁ s₂ params body, Takes .parenL s s₁ ∧ parameters d s₁ = .ok params s₂ ∧
      FunctionBody none params generator false (block d true) s₂ body u ∧
      f = ⟨u.spanFrom s.place, none, params, body, generator⟩ := by
  simp [method] at h
  obtain ⟨s₁, ht, params, s₂, hp, body, h, rfl⟩ := h
  exact ⟨s₁, s₂, params, body, ht, hp, of_functionBody h, rfl⟩

/-- How the body of an arrow function is read. -/
inductive ArrowBody (d : Descent) (s : ParseState) : Body → ParseState → Prop
  | block {b u} (block_ok : block d true s = .ok b u) : ArrowBody d s (.blockBody b) u
  | concise {e u} (value_ok : d.value false s = .ok e u) : ArrowBody d s (.conciseBody e) u

theorem of_arrowBody {b : Body} (h : arrowBody d s = .ok b u) : ArrowBody d s b u := by
  simp [arrowBody] at h
  rcases h with ⟨-, b, h, rfl⟩ | ⟨-, e, h, rfl⟩
  · exact .block h
  · exact .concise h

theorem of_arrow {start : Place} {params : List Pattern} {e : Expression}
    (h : arrow d start params s = .ok e u) :
    ∃ s₁ body, Takes .arrow s s₁ ∧
      FunctionBody none params false true (arrowBody d) s₁ body u ∧
      e = .arrow (u.spanFrom start) (.ofList params) body := by
  simp [arrow] at h
  obtain ⟨s₁, ht, body, h, rfl⟩ := h
  exact ⟨s₁, body, ht, of_functionBody h, rfl⟩

end EcmaTree.Reading
