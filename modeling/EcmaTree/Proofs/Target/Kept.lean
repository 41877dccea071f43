import EcmaTree.Proofs.Target.Converts

/-!
# What the conversion keeps

An expression and the pattern made of it have the same traits: the same names, literals with as
many elements and the same holes, members with the same keys and flags, and default values that
are as they were. The relation of the two decides the conversion. A member expression is the only
place where it matters whether names are bound, so what can be bound can also be assigned to.
-/

namespace EcmaTree

namespace Node

variable {c : Category}

/-- What can be read off a target, be it an expression still or a pattern already. -/
inductive Trait where
  | name (id : Identifier)
  | array (span : Span) (holes : List Bool)
  | object (span : Span) (size : Nat)
  | default (span : Span) (target : Pattern) (value : Expression)
  | member (span : Span) (object property : Expression) (computed : Bool)
  | rest (span : Span)
  | property (span : Span) (key : Key) (shorthand : Bool)
  | spread (span : Span) (argument : Expression)

/-- Which items of a list are holes. -/
def holes : {c : Category} → Node c → List Bool
  | _, .cons .absent tail => true :: holes tail
  | _, .cons _ tail => false :: holes tail
  | _, _ => []

/-- How many items a list has. -/
def size : {c : Category} → Node c → Nat
  | _, .cons _ tail => size tail + 1
  | _, _ => 0

/-- The traits of a target from left to right, each one before those of what is inside of it. -/
def traits : {c : Category} → Node c → List Trait
  | _, .identifier id | _, .namePattern id => [.name id]
  | _, .array span elements => .array span (holes elements) :: traits elements
  | _, .arrayPattern span elements => .array span (holes elements) :: traits elements
  | _, .object span members => .object span (size members) :: traits members
  | _, .objectPattern span members => .object span (size members) :: traits members
  | _, .assignment span _ target value | _, .defaultPattern span target value =>
    [.default span target value]
  | _, .member span obj prop computed | _, .memberPattern span obj prop computed =>
    [.member span obj prop computed]
  | _, .item value => traits value
  | _, .spread span argument => .rest span :: traits argument
  | _, .rest span argument | _, .restPattern span argument => .rest span :: traits argument
  | _, .property span key value _ _ shorthand => .property span key shorthand :: traits value
  | _, .propertyPattern span key value shorthand => .property span key shorthand :: traits value
  | _, .spreadMember span argument | _, .spreadPattern span argument => [.spread span argument]
  | _, .cons head tail => traits head ++ traits tail
  | _, .present value => traits value
  | _, _ => []

end Node

open Node

namespace Converts

variable {isBinding : Bool} {c c' : Category} {n : Node c} {m : Node c'}

theorem span_eq {e : Expression} {p : Pattern} (h : Converts isBinding e p) : p.span = e.span := by
  cases h <;> rfl

theorem holes_eq (h : Converts isBinding n m) : m.holes = n.holes := by
  induction h with
  | cons head tail last ihh iht =>
    cases head with
    | hole => exact congrArg (true :: ·) iht
    | _ => exact congrArg (false :: ·) iht
  | item value_ok ih => cases value_ok <;> rfl
  | _ => rfl

theorem size_eq (h : Converts isBinding n m) : m.size = n.size := by
  induction h with
  | cons head tail last ihh iht => exact congrArg (· + 1) iht
  | item value_ok ih => cases value_ok <;> rfl
  | _ => rfl

/-- The traits of what is converted stay as they are. -/
theorem traits_eq (h : Converts isBinding n m) : m.traits = n.traits := by
  induction h with
  | object members ih => simp only [traits, members.size_eq, ih]
  | array elements ih => simp only [traits, elements.holes_eq, ih]
  | item value_ok ih => exact ih
  | spread argument_ok gathers ih => simp only [traits, ih]
  | property value_ok ih => simp only [traits, ih]
  | cons head tail last ihh iht => simp only [traits, ihh, iht]
  | present value ih => exact ih
  | _ => rfl

/-- What becomes a binding becomes the same target of an assignment. -/
theorem loosen (h : Converts isBinding n m) : Converts false n m := by
  induction h with
  | name id => exact .name id
  | object members ih => exact .object ih
  | array elements ih => exact .array ih
  | default span target value => exact .default span target value
  | member span obj prop computed free => exact .member span obj prop computed rfl
  | item value_ok ih => exact .item ih
  | spread argument_ok gathers ih => exact .spread ih gathers
  | rest span argument => exact .rest span argument
  | property value_ok ih => exact .property ih
  | spreadMember span argument => exact .spreadMember span argument
  | nil => exact .nil
  | cons head tail last ihh iht => exact .cons ihh iht last
  | hole => exact .hole
  | present value ih => exact .present ih

end Converts

/-- The conversion of a node comes to what is related to it, for the nodes that have one. -/
def Node.ConvertsIfRelated (isBinding : Bool) : {c : Category} → Node c → Prop
  | .expression, e => ∀ p : Pattern, Converts isBinding e p → e.convert isBinding = .ok p
  | .element, e => ∀ (isLast : Bool) (p : Pattern), Converts isBinding e p →
    (p.isRest = true → isLast = true) → e.convert isLast isBinding = .ok p
  | .member, m => ∀ p : PatternMember, Converts isBinding m p → m.convert isBinding = .ok p
  | .list .member, ms => ∀ ps : Node (.list .patternMember), Converts isBinding ms ps →
    Converted.members isBinding ms.convert = .ok ps.toList
  | .list (.option .element), es => ∀ ps : Node (.list (.option .pattern)),
    Converts isBinding es ps → Converted.list isBinding es.convert = .ok (ps.toList.map toOption)
  | .option .element, .present e => ∀ (isLast : Bool) (p : Pattern), Converts isBinding e p →
    (p.isRest = true → isLast = true) → e.convert isLast isBinding = .ok p
  | _, _ => True

theorem ofHoleyList_toOption {c : Category} (xs : Node (.list (.option c))) :
    ofHoleyList (xs.toList.map toOption) = xs := by
  have hsame : (xs.toList.map toOption).map ofOption = xs.toList := by
    rw [List.map_map]
    refine List.map_id'' (fun x => ?_) _
    cases x <;> rfl
  rw [ofHoleyList, hsame, ofList_toList]

theorem convertsIfRelated {isBinding : Bool} {c : Category} (n : Node c) :
    n.ConvertsIfRelated isBinding := by
  induction n with
  | identifier id =>
    intro p h
    cases h
    rfl
  | object span members ih =>
    intro p h
    cases h with
    | object members_ok =>
      change (Converted.members isBinding members.convert >>=
        fun ms => pure (Node.objectPattern span (.ofList ms))) = _
      rw [ih _ members_ok]
      exact congrArg (fun ms => Except.ok (Node.objectPattern span ms)) (ofList_toList _)
  | array span elements ih =>
    intro p h
    cases h with
    | array elements_ok =>
      change (Converted.list isBinding elements.convert >>=
        fun es => pure (Node.arrayPattern span (.ofHoleyList es))) = _
      rw [ih _ elements_ok]
      exact congrArg (fun es => Except.ok (Node.arrayPattern span es)) (ofHoleyList_toOption _)
  | assignment span operator target value iht ihv =>
    intro p h
    cases h
    rfl
  | member span obj prop computed iho ihp =>
    intro p h
    cases h with
    | member _ _ _ _ free =>
      subst free
      rfl
  | item value ih =>
    intro isLast p h hrest
    cases h with
    | item value_ok => exact ih p value_ok
  | spread span argument ih =>
    intro isLast p h hrest
    cases h with
    | spread argument_ok gathers =>
      obtain rfl := hrest rfl
      change (argument.convert isBinding >>= fun q => Converted.restArgument q >>=
        fun q => pure (Node.restPattern span q)) = _
      rw [ih _ argument_ok]
      change (Converted.restArgument _ >>= fun q => pure (Node.restPattern span q)) = _
      rw [gathers]
      rfl
  | rest span argument ih =>
    intro isLast p h hrest
    cases h with
    | rest =>
      obtain rfl := hrest rfl
      rfl
  | property span key value kind method shorthand ihk ihv =>
    intro p h
    cases h with
    | property value_ok =>
      change (value.convert isBinding >>=
        fun q => pure (Node.propertyPattern span key q shorthand)) = _
      rw [ihv _ value_ok]
      rfl
  | spreadMember span argument ih =>
    intro p h
    cases h
    rfl
  | @nil item =>
    cases item with
    | member =>
      intro ps h
      cases h
      rfl
    | option item =>
      cases item with
      | element =>
        intro ps h
        cases h
        rfl
      | _ => trivial
    | _ => trivial
  | @cons item head tail ihh iht =>
    cases item with
    | member =>
      intro ps h
      cases h with
      | cons head_ok tail_ok last =>
        change (head.convert isBinding >>= fun m =>
          Converted.members isBinding tail.convert >>= fun ms => pure (m :: ms)) = _
        rw [ihh _ head_ok, iht _ tail_ok]
        rfl
    | option item =>
      cases item with
      | element =>
        intro ps h
        cases h with
        | cons head_ok tail_ok last =>
          cases head_ok with
          | hole =>
            change (Converted.list isBinding tail.convert >>= fun ps => pure (none :: ps)) = _
            rw [iht _ tail_ok]
            rfl
          | present value_ok =>
            rename_i x y
            -- an element that gathers the rest is the last one
            have hlast : y.isRest = true → tail.convert.isEmpty = true := by
              intro hrest
              obtain rfl := last hrest
              cases tail_ok
              rfl
            change (x.convert tail.convert.isEmpty isBinding >>= fun p =>
              Converted.list isBinding tail.convert >>= fun ps => pure (some p :: ps)) = _
            rw [ihh _ _ value_ok hlast, iht _ tail_ok]
            rfl
      | _ => trivial
    | _ => trivial
  | @absent item => cases item <;> trivial
  | @present item value ih =>
    cases item with
    | element => exact ih
    | _ => trivial
  | _ =>
    first
    | trivial
    | intro p h
      cases h

/-- The relation between expressions and patterns decides the conversion. -/
theorem toPattern_eq_ok_iff {e : Expression} {p : Pattern} {isBinding : Bool} :
    e.toPattern isBinding = .ok p ↔ Converts isBinding e p :=
  ⟨converts_of_toPattern, convertsIfRelated e p⟩

end EcmaTree
