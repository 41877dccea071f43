import EcmaTree.Proofs.Grammar.Legality
import EcmaTree.Proofs.Print.Segments

/-!
# How the text of an expression statement begins

A statement that begins with a brace, with `function`, or with `let` and what may begin a target is
read as a block or a declaration. So an expression stands in parentheses if its text begins with a
brace or with `function`. The first segment of the text belongs to a node that is reached by going
to the front part again and again. The search for braces and functions goes the same way, but it
does not go through a default value on a left side, and it does not look for `let` at all.
-/

namespace EcmaTree

open Node

/-- What a statement is taken for by its first words. -/
inductive Opening where
  | block
  | function
  | declaration
deriving DecidableEq

namespace Segment

/-- What a statement is taken for that begins with the segment. -/
def opening? : Segment → Option Opening
  | .braces | .group .brace _ | .group .wideBrace _ => some .block
  | .name s => if s = "function" then some .function else none
  | .word s => if s = "function" ∨ s = "function*" then some .function else none
  | _ => none

/-- Whether the segment begins a target, as it may follow `let` in a declaration. -/
def beginsTarget : Segment → Bool
  | .braces | .group .brace _ | .group .wideBrace _ | .group .square _ | .name _ => true
  | _ => false

/-- A segment that begins nothing but the rest of an expression. -/
def isInner (segment : Segment) : Bool :=
  segment.opening?.isNone && !segment.beginsTarget

end Segment

/-- What a statement is taken for whose text begins with the row. -/
def opening? : List Segment → Option Opening
  | [] => none
  | first :: others =>
    if first = .name "let" ∧ others.head?.any Segment.beginsTarget = true then some .declaration
    else first.opening?

section Rows

variable {e : Expression} {row more : List Segment} {segment : Segment} {inner : List Piece}
  {floor : Precedence} {opening : Opening}

@[simp] theorem opening?_singleton (segment : Segment) :
    opening? [segment] = segment.opening? := by
  simp [opening?]

theorem opening?_guarded (h : opening? (Segment.guarded e row floor) = some opening) :
    opening? row = some opening := by
  rcases Segment.guarded_eq e row floor with ⟨-, heq⟩ | heq
  · exact heq ▸ h
  · rw [heq] at h
    cases h

/-- What follows a row decides how it opens only if the row is the word `let`. -/
theorem opening?_append (hmore : opening? (segment :: more) = none)
    (h : opening? (row ++ segment :: more) = some opening) :
    opening? row = some opening ∨
      row = [.name "let"] ∧ segment.beginsTarget = true ∧ opening = .declaration := by
  cases row with
  | nil =>
    rw [List.nil_append, hmore] at h
    cases h
  | cons first others =>
    cases others with
    | nil =>
      rw [opening?_singleton]
      change (if _ then _ else _) = _ at h
      split at h
      · rename_i hlet
        exact .inr ⟨by rw [hlet.1], by simpa using hlet.2, (Option.some.inj h).symm⟩
      · exact .inl h
    | cons next others => exact .inl h

theorem opening?_append_inner (hsegment : segment.isInner = true)
    (h : opening? (row ++ segment :: more) = some opening) : opening? row = some opening := by
  obtain ⟨hopening, hbegins⟩ : segment.opening? = none ∧ segment.beginsTarget = false := by
    simpa [Segment.isInner] using hsegment
  have hmore : opening? (segment :: more) = none := by
    refine (if_neg fun hlet => ?_).trans hopening
    rw [hlet.1] at hbegins
    cases hbegins
  rcases opening?_append hmore h with h | ⟨-, hfollows, -⟩
  · exact h
  · exact absurd hfollows (by simp [hbegins])

theorem opening?_append_square
    (h : opening? (row ++ .group .square inner :: more) = some opening) :
    opening? row = some opening ∨ row = [.name "let"] ∧ opening = .declaration := by
  rcases opening?_append rfl h with h | ⟨hrow, -, hopening⟩
  · exact .inl h
  · exact .inr ⟨hrow, hopening⟩

theorem opening?_commaSeparated {rows : List (List Segment)}
    (h : opening? (Segment.commaSeparated (row :: rows)) = some opening) :
    opening? row = some opening := by
  cases rows with
  | nil => simpa [Segment.commaSeparated] using h
  | cons next rows => exact opening?_append_inner rfl h

end Rows

/-- An expression in the place of a callee is one word only if it is a name. -/
theorem eq_identifier_of_segments {e : Expression} {s : String}
    (h : e.segments .call = [.name s]) : ∃ id, e = .identifier id ∧ id.name = s := by
  -- The row of an expression that binds tightly enough, and that is no name.
  have row {e : Expression} {row : List Segment} (h : Segment.guarded e row .call = [.name s]) :
      Precedence.call.rank ≤ e.precedence.rank ∧ row = [.name s] := by
    rcases Segment.guarded_eq e row .call with ⟨hrank, heq⟩ | heq
    · exact ⟨hrank, heq ▸ h⟩
    · rw [heq] at h
      cases h
  -- What a row ends with is the word.
  have ends {row more : List Segment} {segment : Segment} (h : row ++ segment :: more = [.name s]) :
      segment = .name s := by
    rcases List.append_eq_singleton_iff.mp h with ⟨-, h⟩ | ⟨-, h⟩ <;> cases h
    rfl
  cases e with
  | identifier id => exact ⟨id, rfl, Segment.name.inj (List.singleton_inj.mp (row h).2)⟩
  | literal | this | array | template | function | new | arrow | unary => cases (row h).2
  | object span members =>
    have hbraced := List.singleton_inj.mp (row h).2
    unfold Segment.braced at hbraced
    split at hbraced <;> cases hbraced
  | call => cases ends (row h).2
  | member span target selector computed =>
    have hselector := (row h).2
    cases computed <;> cases ends hselector
  | update span operator before argument =>
    cases before with
    | true => cases (row h).2
    | false => cases ends (row h).2
  | binary span operator left right => cases operator <;> cases ends (row h).2
  | logical | assignment | conditional => cases ends (row h).2
  | sequence | yield => exact absurd (row h).1 (by simp [Expression.precedence, Precedence.rank])

namespace Node

/-- The part of a node with which the text of the node begins. -/
def front? : {c : Category} → Node c → Option ((c : Category) × Node c)
  | _, .binary _ _ left _ | _, .logical _ _ left _ => some ⟨_, left⟩
  | _, .assignment _ _ target _ | _, .defaultPattern _ target _ => some ⟨_, target⟩
  | _, .conditional _ test _ _ => some ⟨_, test⟩
  | _, .call _ callee _ => some ⟨_, callee⟩
  | _, .member _ target _ _ | _, .memberPattern _ target _ _ => some ⟨_, target⟩
  | _, .update _ _ false argument => some ⟨_, argument⟩
  | _, .sequence _ expressions => some ⟨_, expressions⟩
  | _, .cons head _ => some ⟨_, head⟩
  | _, _ => none

/-- One comes from the first node to the second one by going to the front part. -/
abbrev Leads : ((c : Category) × Node c) → ((c : Category) × Node c) → Prop :=
  Relation.ReflTransGen fun n m => n.2.front? = some m

/-- The nodes that make a statement begin like one of another kind. -/
inductive BeginsLike : Opening → ((c : Category) × Node c) → Prop
  | object {span : Span} {members : Node (.list .member)} :
      BeginsLike .block ⟨_, .object span members⟩
  | objectPattern {span : Span} {members : Node (.list .patternMember)} :
      BeginsLike .block ⟨_, .objectPattern span members⟩
  | function {span : Span} {id : Option Identifier} {params : Node (.list .pattern)} {body : Block}
      {generator : Bool} : BeginsLike .function ⟨_, .function span id params body generator⟩
  | member {span place : Span} {property : Expression} :
      BeginsLike .declaration ⟨_, .member span (.identifier ⟨place, "let"⟩) property true⟩
  | memberPattern {span place : Span} {property : Expression} :
      BeginsLike .declaration ⟨_, .memberPattern span (.identifier ⟨place, "let"⟩) property true⟩

/-- A row that opens like a statement of another kind begins with a node that does so. -/
def IsOpened (n : (c : Category) × Node c) (row : List Segment) : Prop :=
  ∀ opening, opening? row = some opening → ∃ x, Leads n x ∧ BeginsLike opening x

section Opened

variable {n m : (c : Category) × Node c} {e : Expression} {row more : List Segment}
  {segment : Segment} {floor : Precedence}

theorem isOpened_of_none (h : opening? row = none) : IsOpened n row := by
  intro opening hrow
  rw [h] at hrow
  cases hrow

theorem IsOpened.guarded (h : IsOpened n row) : IsOpened n (Segment.guarded e row floor) :=
  fun opening hrow => h opening (opening?_guarded hrow)

theorem IsOpened.append (h : IsOpened n row) (hsegment : segment.isInner = true) :
    IsOpened n (row ++ segment :: more) :=
  fun opening hrow => h opening (opening?_append_inner hsegment hrow)

theorem IsOpened.of_front (h : IsOpened m row) (hfront : n.2.front? = some m) :
    IsOpened n row := by
  intro opening hrow
  obtain ⟨x, hleads, hlike⟩ := h opening hrow
  exact ⟨x, .head hfront hleads, hlike⟩

/-- An expression with an operator, a mark or parentheses behind its front part opens like it. -/
theorem IsOpened.leading (h : IsOpened m row) (hfront : n.2.front? = some m)
    (hsegment : segment.isInner = true) :
    IsOpened n (Segment.guarded e (row ++ segment :: more) floor) :=
  ((h.of_front hfront).append hsegment).guarded

/-- A name that is no keyword opens like an expression. -/
theorem isOpened_name {id : Identifier} (h : Keyword.ofWord? id.name = none) :
    IsOpened n [.name id.name] := by
  refine isOpened_of_none ((opening?_singleton _).trans (if_neg fun hname => ?_))
  rw [hname] at h
  exact absurd h (by decide)

theorem isOpened_braced {members : List (List Piece)} (h : BeginsLike .block n) :
    IsOpened n [.braced members] := by
  intro opening hrow
  have hblock : opening? [.braced members] = some .block := by
    unfold Segment.braced
    split <;> rfl
  obtain rfl := Option.some.inj (hblock.symm.trans hrow)
  exact ⟨n, .refl, h⟩

theorem isOpened_access {target : Expression} {computed : Bool}
    {property : Precedence → List Segment} (hfront : n.2.front? = some ⟨_, target⟩)
    (htarget : ∀ floor, IsOpened ⟨_, target⟩ (target.segments floor))
    (hlet : ∀ place, computed = true → target = .identifier ⟨place, "let"⟩ →
      BeginsLike .declaration n) :
    IsOpened n (Segment.receiver target computed target.segments ++
      Segment.selector computed property) := by
  cases computed with
  | false =>
    refine IsOpened.append ?_ rfl
    unfold Segment.receiver
    split
    · exact isOpened_of_none rfl
    · exact (htarget .call).of_front hfront
  | true =>
    have hreceiver : Segment.receiver target true target.segments = target.segments .call := by
      simp [Segment.receiver]
    rw [hreceiver]
    intro opening hrow
    rcases opening?_append_square hrow with hopening | ⟨hname, rfl⟩
    · exact (htarget .call).of_front hfront opening hopening
    · obtain ⟨⟨place, name⟩, rfl, rfl⟩ := eq_identifier_of_segments hname
      exact ⟨n, .refl, hlet place rfl rfl⟩

end Opened

section Formed

variable {options : ParseOptions} {σ : Scope} {c : Category} {n : Node c}

/-- The front part stands in the same scope, and not in the place of a property name. -/
theorem isFormed_of_front {m : (c : Category) × Node c} (h : n.IsFormed options σ)
    (hfront : n.front? = some m) : m.2.IsFormed options σ := by
  cases n with
  | binary | logical | conditional | call | sequence | cons =>
    cases hfront
    exact ⟨h.everywhere.here.proper _ List.mem_cons_self, h.everywhere.part List.mem_cons_self⟩
  | update span operator before argument =>
    cases before with
    | true => cases hfront
    | false =>
      cases hfront
      exact ⟨h.everywhere.here.proper _ List.mem_cons_self, h.everywhere.part List.mem_cons_self⟩
  | member span target selector computed | memberPattern span target selector computed =>
    cases hfront
    refine ⟨h.everywhere.here.proper ⟨σ, target⟩ ?_, h.everywhere.part List.mem_cons_self⟩
    cases computed <;> exact List.mem_cons_self
  | assignment =>
    cases hfront
    exact ⟨h.proper.2, h.everywhere.part List.mem_cons_self⟩
  | defaultPattern =>
    cases hfront
    exact ⟨h.proper, h.everywhere.part List.mem_cons_self⟩
  | _ => cases hfront

/-- The row of a node opens as the front of the node says. -/
def IsLed (options : ParseOptions) (σ : Scope) : (c : Category) → Node c → Prop
  | .expression, e =>
    e.IsFormed options σ → ∀ floor, IsOpened ⟨_, e⟩ (e.segments floor)
  | .pattern, p => p.IsFormed options σ → IsOpened ⟨_, p⟩ p.segments
  | .list .expression, es => es.IsFormed options σ → IsOpened ⟨_, es⟩
      (Segment.commaSeparated ((es.segments : List (Precedence → List Segment)).map
        (· .assignment)))
  | _, _ => True

/-- By induction on the node: the row of the front part comes first, and what follows it is read
on as an expression, but for brackets behind the word `let`. -/
theorem isLed (n : Node c) : IsLed options σ c n := by
  induction n with
  | identifier id => exact fun h floor => (isOpened_name h.proper).guarded
  -- These begin with a word, a mark or brackets of their own, and not with a part of theirs.
  | literal | this | array | template | unary | new | arrow =>
    refine fun _ floor => (isOpened_of_none ?_).guarded
    simp [opening?, Segment.opening?, Segment.parameters]
  | yield span argument delegate =>
    refine fun _ floor => (isOpened_of_none ?_).guarded
    cases delegate <;> rfl
  | object => exact fun _ floor => (isOpened_braced .object).guarded
  | function span id params body generator =>
    refine fun _ floor => IsOpened.guarded fun opening hrow => ⟨_, .refl, ?_⟩
    have hword : ∀ row, opening? (Segment.functionWord id generator ++ row) = some .function := by
      intro row
      cases generator <;> rfl
    obtain rfl := Option.some.inj ((hword _).symm.trans hrow)
    exact .function
  | update span operator before argument ih =>
    cases before with
    | true => exact fun _ floor => (isOpened_of_none rfl).guarded
    | false =>
      exact fun h floor => (ih (isFormed_of_front h rfl) _).leading rfl rfl
  | binary span operator left right ih =>
    cases operator <;> exact fun h floor => (ih (isFormed_of_front h rfl) _).leading rfl rfl
  | logical span operator left right ih =>
    exact fun h floor => (ih (isFormed_of_front h rfl) _).leading rfl rfl
  | assignment span operator target value ih =>
    exact fun h floor => (ih (isFormed_of_front h rfl)).leading rfl rfl
  | conditional span test consequent alternate ih =>
    refine fun h floor => IsOpened.guarded ?_
    rw [List.append_assoc]
    exact ((ih (isFormed_of_front h rfl) _).of_front rfl).append rfl
  | call span callee arguments ih =>
    exact fun h floor => (ih (isFormed_of_front h rfl) _).leading rfl rfl
  | member span target selector computed ih =>
    refine fun h floor => IsOpened.guarded
      (isOpened_access rfl (ih (isFormed_of_front h rfl)) fun place hcomputed htarget => ?_)
    rw [hcomputed, htarget]
    exact .member
  | sequence span expressions ih =>
    exact fun h floor => ((ih (isFormed_of_front h rfl)).of_front rfl).guarded
  | namePattern id => exact fun h => isOpened_name h.proper
  | objectPattern => exact fun _ => isOpened_braced .objectPattern
  | arrayPattern | restPattern => exact fun _ => isOpened_of_none rfl
  | defaultPattern span target value ih =>
    exact fun h => ((ih (isFormed_of_front h rfl)).of_front rfl).append rfl
  | memberPattern span target selector computed ih =>
    refine fun h => isOpened_access rfl (ih (isFormed_of_front h rfl))
      fun place hcomputed htarget => ?_
    rw [hcomputed, htarget]
    exact .memberPattern
  | @nil item =>
    cases item with
    | expression => exact fun _ => isOpened_of_none rfl
    | _ => trivial
  | @cons item head tail ih =>
    cases item with
    | expression =>
      intro h opening hrow
      have hhead : IsOpened ⟨_, .cons head tail⟩ (head.segments .assignment) :=
        (ih (isFormed_of_front h rfl) .assignment).of_front rfl
      exact hhead opening (opening?_commaSeparated hrow)
    | _ => trivial
  | _ => trivial

end Formed

/-- The search for braces and functions goes to the front part, but not into a default value. -/
theorem startsLikeStatement_of_front {c : Category} {n : Node c} {m : (c : Category) × Node c}
    (hfront : n.front? = some m) (hdefault : n.isDefault = false) :
    m.2.startsLikeStatement = n.startsLikeStatement := by
  cases n with
  | update span operator before argument =>
    cases before <;> cases hfront
    rfl
  | defaultPattern => cases hdefault
  | _ => cases hfront <;> rfl

theorem exists_default_of_leads {n x : (c : Category) × Node c} (h : Leads n x)
    (hn : n.2.startsLikeStatement = false) (hx : x.2.startsLikeStatement = true) :
    ∃ d, Leads n d ∧ d.2.isDefault = true ∧ Leads d x := by
  induction h using Relation.ReflTransGen.head_induction_on with
  | refl => exact absurd hx (by simp [hn])
  | @head n m hfront hleads ih =>
    cases hdefault : n.2.isDefault with
    | true => exact ⟨n, .refl, hdefault, .head hfront hleads⟩
    | false =>
      rw [← startsLikeStatement_of_front hfront hdefault] at hn
      obtain ⟨d, hd, hisDefault, hrest⟩ := ih hn
      exact ⟨d, .head hfront hd, hisDefault, hrest⟩

theorem startsLikeStatement_of_beginsLike {opening : Opening} {x : (c : Category) × Node c}
    (h : BeginsLike opening x) (hopening : opening ≠ .declaration) :
    x.2.startsLikeStatement = true := by
  cases h with
  | object | objectPattern | function => rfl
  | member | memberPattern => exact absurd rfl hopening

end Node

/-- The text of an expression statement as a row of segments. -/
def statementRow (value : Expression) (directive : Option String) : List Segment :=
  (if directive.isNone && value.isString || value.startsLikeStatement then
    [.group .round (value.layout .sequence)]
   else value.segments .sequence) ++ [.mark ";"]

theorem pieces_statementRow (span : Span) (value : Expression) (directive : Option String) :
    (statementRow value directive).flatMap Segment.pieces =
      (Node.expressionStatement span value directive).layout := by
  have hvalue : (value.segments .sequence).flatMap Segment.pieces = value.layout .sequence :=
    writes_segments value .sequence
  change (statementRow value directive).flatMap Segment.pieces =
    (if directive.isNone && value.isString || value.startsLikeStatement then
      Layout.parenthesized (value.layout .sequence)
     else value.layout .sequence) ++ [.text ";"]
  unfold statementRow
  split <;> simp [hvalue]

/-- An expression statement whose text begins like a statement of another kind. -/
def Node.opensLike (opening : Opening) : {c : Category} → Node c → Bool
  | _, .expressionStatement _ value directive =>
    opening? (statementRow value directive) == some opening
  | _, _ => false

theorem Node.of_opensLike {opening : Opening} {m : (c : Category) × Node c}
    (h : m.2.opensLike opening = true) : ∃ span value directive,
      m = ⟨_, .expressionStatement span value directive⟩ ∧
        opening? (statementRow value directive) = some opening := by
  obtain ⟨c, n⟩ := m
  cases n with
  | expressionStatement span value directive =>
    exact ⟨span, value, directive, rfl, by simpa [opensLike] using h⟩
  | _ => cases h

/-- If the text of an expression statement of an accepted program begins like a statement of
another kind, its front is what makes it begin so: a literal, a pattern or a function that is
reached through a default value on a left side, or a computed member of the name `let`. -/
theorem beginsLike_of_parse {options : ParseOptions} {text : List Char} {file : File} {span : Span}
    {value : Expression} {directive : Option String} {opening : Opening}
    (h : (parse options text).result = .ok file)
    (hs : Occurs ⟨_, file.program.body⟩ ⟨_, .expressionStatement span value directive⟩)
    (hopening : opening? (statementRow value directive) = some opening) :
    (statementRow value directive).flatMap Segment.pieces =
        (Node.expressionStatement span value directive).layout ∧
      ∃ x, Leads ⟨_, value⟩ x ∧ BeginsLike opening x ∧
        (opening = .declaration ∨
          ∃ d, Leads ⟨_, value⟩ d ∧ d.2.isDefault = true ∧ Leads d x) := by
  obtain ⟨σ, hsite⟩ := exists_site_of_occurs (file.scope options) hs
  have hstatement : (Node.expressionStatement span value directive).Everywhere
      (Node.Abides options) σ :=
    fun site hbelow => (isFormed_of_parse h).everywhere site (hsite.trans hbelow)
  have hvalue : value.IsFormed options σ :=
    ⟨hstatement.here.proper ⟨σ, value⟩ List.mem_cons_self, hstatement.part List.mem_cons_self⟩
  refine ⟨pieces_statementRow span value directive, ?_⟩
  have hrow := opening?_append_inner rfl hopening
  split at hrow
  · cases hrow
  · rename_i hbare
    obtain ⟨x, hleads, hlike⟩ := isLed value hvalue .sequence opening hrow
    have hsearch : value.startsLikeStatement = false :=
      Bool.eq_false_iff.mpr fun hstarts => hbare (by simp [hstarts])
    refine ⟨x, hleads, hlike, or_iff_not_imp_left.mpr fun hne => ?_⟩
    exact exists_default_of_leads hleads hsearch (startsLikeStatement_of_beginsLike hlike hne)

/-- The name loses its parentheses, and the statement is written as `let[a] = 1;`. -/
theorem beginsLike_of_parse_let : ∃ (file : File) (span : Span) (value : Expression)
    (directive : Option String),
    (parse {} "(let)[a] = 1".toList).result = .ok file ∧
      Occurs ⟨_, file.program.body⟩ ⟨_, .expressionStatement span value directive⟩ ∧
      opening? (statementRow value directive) = some .declaration ∧
      (statementRow value directive).flatMap Segment.pieces =
          (Node.expressionStatement span value directive).layout ∧
        ∃ x, Leads ⟨_, value⟩ x ∧ BeginsLike .declaration x ∧
          (Opening.declaration = .declaration ∨
            ∃ d, Leads ⟨_, value⟩ d ∧ d.2.isDefault = true ∧ Leads d x) := by
  have hany : ((parse {} "(let)[a] = 1".toList).result.toOption.any fun file =>
      file.program.body.any (opensLike .declaration)) = true := by
    decide +kernel
  obtain ⟨file, m, h, hm, hlike⟩ := exists_occurs_of_parse hany
  obtain ⟨span, value, directive, rfl, hopening⟩ := of_opensLike hlike
  exact ⟨file, span, value, directive, h, hm, hopening, beginsLike_of_parse h hm hopening⟩

end EcmaTree
