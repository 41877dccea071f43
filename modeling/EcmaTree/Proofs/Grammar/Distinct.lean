import EcmaTree.Proofs.Grammar.Patterns
import EcmaTree.Proofs.Target.Names

/-!
# Parameters of one function have different names

Sloppy functions may have two parameters of one name, as long as all their parameters are bare
names. In all other functions the check of the parameters gathers the names, and it takes place
behind the body, when a directive has been seen. The parameters of an arrow function are checked
in the same way, whether they have been read as patterns or as expressions.
-/

namespace EcmaTree

open EcmaTree.Grammar Node

namespace Node

def isArrow : {c : Category} → Node c → Bool
  | _, .arrow _ _ _ => true
  | _, _ => false

/-- Below the site `root` no name is bound twice where that is promised. -/
structure IsDistinct (root : Site) : Prop where
  arrow : ∀ {x}, root.Occurs x → x.node.isArrow = true → x.node.parameters.boundNames.Nodup
  pattern : ∀ {x p}, root.Occurs x → p ∈ x.node.parameters.toList → Pattern.isName p = false →
    x.node.parameters.boundNames.Nodup
  strict : ∀ {x}, root.Occurs x → x.node.bindsStrictly x.scope = true →
    x.node.parameters.boundNames.Nodup
  caught : ∀ {σ span param body}, root.Occurs ⟨σ, .handler span param body⟩ →
    param.boundNames.Nodup

end Node

namespace Distinct

variable {options : ParseOptions} {σ : Scope} {c : Category} {n : Node c}

/-- Whether the parameters of a node have to differ. -/
def gathersNames (σ : Scope) (n : Node c) : Bool :=
  n.isArrow || n.bindsStrictly σ || !n.parameters.toList.all Pattern.isName

theorem nodup_of_binds {strict isArrow : Bool} {id : Option Identifier}
    {params : Node (.list .pattern)} (h : Binds strict id isArrow params)
    (hg : (isArrow || strict || !params.toList.all Pattern.isName) = true) :
    params.boundNames.Nodup := by
  have hchecked := h.params_ok
  rw [if_pos hg] at hchecked
  have hnodup := Pattern.nodup_of_checkAll hchecked
  rwa [ofList_toList] at hnodup

theorem nodup_of_obeys (h : n.Obeys options σ) (hg : gathersNames σ n = true) :
    n.parameters.boundNames.Nodup := by
  cases n with
  | function | functionDeclaration | arrow => exact nodup_of_binds h hg
  | _ => exact List.nodup_nil

theorem isDistinct_of_isLegal {root : Site} (h : root.node.IsLegal options root.scope) :
    IsDistinct root where
  arrow hx ha := nodup_of_obeys (h _ hx) (by simp [gathersNames, ha])
  pattern {x p} hx hp hname := by
    refine nodup_of_obeys (h x hx) ?_
    have hall : x.node.parameters.toList.all Pattern.isName = false :=
      List.all_eq_false.mpr ⟨p, hp, by simp [hname]⟩
    simp [gathersNames, hall]
  strict hx hs := nodup_of_obeys (h _ hx) (by simp [gathersNames, hs])
  caught hx := by
    have hnodup := Pattern.nodup_of_checkAll (h _ hx).1
    simpa [boundNames, ofList] using hnodup

end Distinct

/-- In an accepted program the parameters of an arrow function, of a function in strict code and of
one with a parameter that is no bare name bind no name twice, and neither does what a handler
catches. -/
theorem isDistinct_of_parse {options : ParseOptions} {text : List Char} {file : File}
    (h : (parse options text).result = .ok file) :
    IsDistinct ⟨file.scope options, file.program.body⟩ :=
  Distinct.isDistinct_of_isLegal (isLegal_of_parse h)

/-- The parameters of the arrow function have been read as expressions, and a directive makes the
function inside the handler strict. -/
theorem isDistinct_of_parse_directive : ∃ file,
    (parse {} ("(\x7ba\x7d, [b]) => \x7b try \x7b c \x7d catch ([d, e]) \x7b " ++
      "(function (f, g) \x7b 'use strict' \x7d) \x7d \x7d").toList).result = .ok file ∧
      IsDistinct ⟨file.scope {}, file.program.body⟩ := by
  obtain ⟨file, h⟩ := exists_of_isOk (x :=
    (parse {} ("(\x7ba\x7d, [b]) => \x7b try \x7b c \x7d catch ([d, e]) \x7b " ++
      "(function (f, g) \x7b 'use strict' \x7d) \x7d \x7d").toList).result) (by decide +kernel)
  exact ⟨file, h, isDistinct_of_parse h⟩

end EcmaTree
