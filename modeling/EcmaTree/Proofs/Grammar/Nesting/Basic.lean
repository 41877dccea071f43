import EcmaTree.Proofs.Grammar.Reading.Statement
import EcmaTree.Proofs.Token.Tiling
import EcmaTree.Proofs.Tree.Nesting

/-!
# What a rule has read lies between two tokens

A rule reads from the token at the front of a stream up to the end of the last token before
another stream. What it answers lies between these two places, in the order of the text. Such
stretches are put together one after the other, and what is read in one of them may become a node.
-/

namespace EcmaTree

open EcmaTree.Parser EcmaTree.Grammar EcmaTree.Reading TokenStream

namespace TokenStream

variable {text : List Char} {s t u : TokenStream} {fs gs : List Fragment}

/-- Where the current token starts. -/
def front (s : TokenStream) : Nat :=
  s.token.span.start.offset

/-- Where the last token has ended. -/
def ended (s : TokenStream) : Nat :=
  match s.last with
  | some last => last.stop.offset
  | none => 0

/-- A stream that reading a text has come to. -/
structure IsFit (text : List Char) (s : TokenStream) : Prop where
  covered : s.IsCovered text
  placed : s.IsPlaced

theorem IsFit.ended_le (hs : s.IsFit text) : s.ended ≤ s.front := by
  unfold ended
  split
  · rename_i last hlast
    exact hs.covered.last_le last hlast
  · exact Nat.zero_le _

/-- The stream `u` comes after `s`, and the fragments lie one after the other between them. -/
structure Stretch (text : List Char) (s u : TokenStream) (fs : List Fragment) : Prop where
  fit : u.IsFit text
  front_le : s.front ≤ u.front
  ended_le : s.ended ≤ u.ended
  within : ∀ x ∈ spansOf fs, s.front ≤ x.start.offset ∧ x.start.offset ≤ x.stop.offset ∧
    x.stop.offset ≤ u.ended ∧ x.start.offset < u.ended
  ordered : (spansOf fs).Pairwise Span.Precedes
  sound : ∀ f ∈ fs, f.IsSound text

/-- If reading the text comes to `s`, then the fragments have been read from `s` to `u`. -/
def Covers (text : List Char) (s u : TokenStream) (fs : List Fragment) : Prop :=
  s.IsFit text → Stretch text s u fs

/-- Something has been read where some fragment has a span. -/
theorem Stretch.front_lt (h : Stretch text s u fs) (hne : spansOf fs ≠ []) : s.front < u.ended := by
  obtain ⟨x, hx⟩ := List.exists_mem_of_ne_nil _ hne
  have hx := h.within x hx
  omega

/-- A fragment with one span in what has been read. -/
theorem Stretch.only {f : Fragment} {x : Span} (h : Stretch text s u fs) (hf : spansOf [f] = [x])
    (hx : s.front ≤ x.start.offset ∧ x.start.offset ≤ x.stop.offset ∧
      x.stop.offset ≤ u.ended ∧ x.start.offset < u.ended)
    (sound : f.IsSound text) : Stretch text s u [f] := by
  refine ⟨h.fit, h.front_le, h.ended_le, ?_, ?_, List.forall_mem_singleton.mpr sound⟩
  · rw [hf]
    exact List.forall_mem_singleton.mpr hx
  · rw [hf]
    exact List.pairwise_singleton _ _

namespace Covers

theorem refl : Covers text s s [] :=
  fun hs => ⟨hs, Nat.le_refl _, Nat.le_refl _, nofun, .nil, nofun⟩

/-- What is read first ends before the next token starts. -/
theorem append (h : Covers text s t fs) (h' : Covers text t u gs) : Covers text s u (fs ++ gs) := by
  intro hs
  have first := h hs
  have second := h' first.fit
  have hgap := first.fit.ended_le
  refine ⟨second.fit, Nat.le_trans first.front_le second.front_le,
    Nat.le_trans first.ended_le second.ended_le, ?_, ?_,
    List.forall_mem_append.mpr ⟨first.sound, second.sound⟩⟩
  · rw [spansOf_append]
    refine List.forall_mem_append.mpr ⟨fun x hx => ?_, fun x hx => ?_⟩
    · have hx := first.within x hx
      have hle := second.ended_le
      omega
    · have hx := second.within x hx
      have hle := first.front_le
      omega
  · rw [spansOf_append]
    refine List.pairwise_append.mpr ⟨first.ordered, second.ordered, fun x hx y hy => ?_⟩
    have hx := first.within x hx
    have hy := second.within y hy
    exact ⟨by omega, by omega⟩

/-- Some of the fragments, or others with the same spans. -/
theorem of_sublist (h : Covers text s u fs) (hspans : (spansOf gs).Sublist (spansOf fs))
    (hsound : (∀ f ∈ fs, f.IsSound text) → ∀ f ∈ gs, f.IsSound text) : Covers text s u gs := by
  intro hs
  obtain ⟨fit, front_le, ended_le, within, ordered, sound⟩ := h hs
  exact ⟨fit, front_le, ended_le, fun x hx => within x (hspans.subset hx), ordered.sublist hspans,
    hsound sound⟩

theorem forget (h : Covers text s u fs) : Covers text s u [] :=
  h.of_sublist (List.nil_sublist _) fun _ => nofun

section Nodes

variable {c c' : Category} {n : Node c} {a : Node c'}

/-- What has been read becomes a node from the first token to the end of the last one. -/
theorem node (hn : n.IsPlain) (hstart : n.span.start.offset = s.front)
    (hstop : s.front < u.ended → n.span.stop.offset = u.ended)
    (moved : Stretch text s u n.fragments → s.IsFit text → s.front < u.ended)
    (h : Covers text s u n.fragments) : Covers text s u [.node n] := by
  intro hs
  have stretch := h hs
  have hlt := moved stretch hs
  have hstop := hstop hlt
  obtain ⟨hplace, hshorthand⟩ := hn
  have nested : n.IsNested text := by
    refine ⟨by omega, fun x hx => ?_, fun _ => stretch.ordered, fun hf => stretch.sound _ hf⟩
    have hx := stretch.within x hx
    omega
  have hall := Node.allNested_of_children nested
    (Node.allNested_of_fragments hplace stretch.sound)
  exact stretch.only (Node.spansOf_node hplace n) ⟨by omega, by omega, by omega, by omega⟩ hall

/-- A node that adds nothing to the only fragment of it. -/
theorem of_fragment {f : Fragment} (hn : n.IsPlain) (hspan : f.spans = [n.span])
    (hf : n.fragments = [f]) (h : Covers text s u [f]) : Covers text s u [.node n] := by
  intro hs
  have stretch := h hs
  obtain ⟨hplace, -⟩ := hn
  have hspans : spansOf n.fragments = [n.span] := by simp [hf, spansOf, hspan]
  have hwithin := stretch.within n.span (by simp [spansOf, hspan])
  have nested : n.IsNested text := by
    refine ⟨hwithin.2.1, ?_, fun _ => ?_, fun {span content} hmem => ?_⟩
    · rw [hspans]
      exact List.forall_mem_singleton.mpr ⟨Nat.le_refl _, Nat.le_refl _⟩
    · rw [hspans]
      exact List.pairwise_singleton _ _
    · rw [hf] at hmem
      exact stretch.sound (.written span content) hmem
  have hall := Node.allNested_of_children nested
    (Node.allNested_of_fragments hplace (hf ▸ stretch.sound))
  exact stretch.only (Node.spansOf_node hplace n) hwithin hall

/-- A node that adds nothing to the only node below it. -/
theorem wrap (h : Covers text s u [.node a]) (hn : n.IsPlain) (ha : c'.IsPlaced)
    (hspan : n.span = a.span) (hf : n.fragments = [.node a]) : Covers text s u [.node n] := by
  refine of_fragment hn ?_ hf h
  rw [hspan]
  exact Node.outline_of_isPlaced ha a

/-- Back from a name as a node to the name. -/
theorem to_written {span : Span} {content : String} (h : Covers text s u [.node n])
    (hplace : c.IsPlaced) (hspan : n.span = span) (hf : n.fragments = [.written span content]) :
    Covers text s u [.written span content] := by
  refine h.of_sublist ?_ fun sound => ?_
  · rw [Node.spansOf_node hplace, hspan]
    exact .refl _
  · have hall : n.AllNested text := sound _ List.mem_cons_self
    exact List.forall_mem_singleton.mpr (hall.here.spelled (hf ▸ List.mem_cons_self))

/-- Another node in the place of a node. -/
theorem exchange (hspan : a.outline = n.outline) (hall : n.AllNested text → a.AllNested text)
    (h : Covers text s u [.node n]) : Covers text s u [.node a] := by
  refine h.of_sublist ?_ fun sound => ?_
  · simp [spansOf, Fragment.spans, hspan]
  · exact List.forall_mem_singleton.mpr (hall (sound _ List.mem_cons_self))

theorem nil : Covers text s s [.node (.nil (c := c))] :=
  refl.of_sublist (List.nil_sublist _) fun _ => List.forall_mem_singleton.mpr
    (Node.allNested_of_children (Node.isNested_list _) nofun)

theorem absent : Covers text s s [.node (.absent (c := c))] :=
  refl.of_sublist (List.nil_sublist _) fun _ => List.forall_mem_singleton.mpr
    (Node.allNested_of_children (Node.isNested_option _) nofun)

theorem present (h : Covers text s u [.node n]) : Covers text s u [.node (.present n)] :=
  exchange (n := n) (a := .present n) rfl (fun hall =>
    Node.allNested_of_children (Node.isNested_option _) (List.forall_mem_singleton.mpr hall)) h

theorem cons {xs : Node (.list c)} (h : Covers text s t [.node n])
    (h' : Covers text t u [.node xs]) : Covers text s u [.node (.cons n xs)] := by
  refine (h.append h').of_sublist ?_ fun sound => List.forall_mem_singleton.mpr ?_
  · simp [spansOf, Fragment.spans, Node.outline]
  · refine Node.allNested_of_children (Node.isNested_list _) ?_
    exact List.forall_mem_cons.mpr ⟨sound (.node n) List.mem_cons_self,
      List.forall_mem_singleton.mpr (sound (.node xs) (List.mem_cons_of_mem _ List.mem_cons_self))⟩

theorem single (h : Covers text s u [.node n]) : Covers text s u [.node (.cons n .nil)] :=
  h.cons .nil

/-- Holes are left out. -/
theorem reduceOption {xs : List (Option (Node c))} (h : Covers text s u [.node (.ofHoleyList xs)]) :
    Covers text s u [.node (.ofList xs.reduceOption)] := by
  refine h.exchange ?_ fun hall => Node.allNested_ofList.mpr fun x hx => ?_
  · rw [Node.outline_ofList, Node.outline_ofHoleyList]
  · exact Node.allNested_ofHoleyList.mp hall x (List.reduceOption_mem_iff.mp hx)

/-- A shorthand property ends with its value and begins with its key, which its value begins
with as well. -/
theorem shorthand {key : Key} {value : Node c'} (hplace : c.IsPlaced)
    (hshorthand : n.isShorthand = true) (hf : n.fragments = [.node key, .node value])
    (hstart : n.span.start.offset = s.front)
    (hstop : s.front < u.ended → n.span.stop.offset = u.ended)
    (hkey : Covers text s u [.node key]) (hvalue : Covers text s u [.node value]) :
    Covers text s u [.node n] := by
  intro hs
  have first := hkey hs
  have second := hvalue hs
  have hlt : s.front < u.ended := first.front_lt (by simp [Node.spansOf_node (c := .key) trivial])
  have hstop := hstop hlt
  have sound : ∀ f ∈ n.fragments, f.IsSound text := by
    rw [hf]
    exact List.forall_mem_cons.mpr ⟨first.sound _ List.mem_cons_self, second.sound⟩
  have nested : n.IsNested text := by
    refine ⟨by omega, ?_, fun h => ?_, fun hmem => sound _ hmem⟩
    · rw [hf, show spansOf [.node key, .node value] =
        spansOf [.node key] ++ spansOf [.node value] from spansOf_append [_] [_]]
      refine List.forall_mem_append.mpr ⟨fun x hx => ?_, fun x hx => ?_⟩
      · have hx := first.within x hx
        omega
      · have hx := second.within x hx
        omega
    · rw [hshorthand] at h
      cases h
  have hall := Node.allNested_of_children nested (Node.allNested_of_fragments hplace sound)
  exact first.only (Node.spansOf_node hplace n) ⟨by omega, by omega, by omega, by omega⟩ hall

end Nodes

end Covers

end TokenStream

namespace Nesting

open TokenStream

variable {text : List Char} {s t u : ParseState} {fs : List Fragment} {k : TokenKind}

theorem fit_of_advance (hs : s.stream.IsFit text) (h : advance s = .ok () u) :
    u.stream.IsFit text := by
  obtain ⟨stream, ha, rfl⟩ := advance_eq_ok.mp h
  exact ⟨isCovered_of_advance hs.covered ha, isPlaced_of_read ha⟩

theorem last_of_advance (h : advance s = .ok () u) : u.stream.last = some s.stream.token.span := by
  obtain ⟨stream, ha, rfl⟩ := advance_eq_ok.mp h
  exact TokenStream.last_of_advance ha

/-- The token that is left behind has ended where the last token has ended. -/
theorem ended_of_advance (h : advance s = .ok () u) :
    u.stream.ended = s.stream.token.span.stop.offset := by
  unfold TokenStream.ended
  rw [last_of_advance h]

theorem covers_of_advance (h : advance s = .ok () u) : Covers text s.stream u.stream [] := by
  intro hs
  have hu := fit_of_advance hs h
  have hended := ended_of_advance h
  have hle := hs.ended_le
  have hgap := hu.ended_le
  have hwidth : s.stream.front ≤ s.stream.token.span.stop.offset := hs.placed.start_le_stop
  exact ⟨hu, by omega, by omega, nofun, .nil, nofun⟩

/-- Only the end of input and chunks of templates may be empty. -/
def isWide : TokenKind → Bool
  | .eof | .template => false
  | _ => true

theorem front_lt_of_advance (hs : s.stream.IsFit text) (hk : isWide s.kind = true)
    (h : advance s = .ok () u) : s.stream.front < u.stream.ended := by
  rw [ended_of_advance h]
  refine hs.placed.wide (fun he => ?_) (fun he => ?_) <;>
  · unfold ParseState.kind at hk
    rw [he] at hk
    cases hk

theorem covers_of_takes (h : Takes k s u) : Covers text s.stream u.stream [] :=
  covers_of_advance h.2

theorem covers_of_eats {eaten : Bool} (h : Eats k eaten s u) :
    Covers text s.stream u.stream [] := by
  rcases h with ⟨-, h⟩ | ⟨-, -, rfl⟩
  · exact covers_of_takes h
  · exact .refl

theorem covers_of_ends (h : Ends s u) : Covers text s.stream u.stream [] := by
  rcases h with h | ⟨-, -, rfl⟩
  · exact covers_of_takes h
  · exact .refl

theorem covers_of_separator {isFirst : Bool} (h : Separator isFirst s u) :
    Covers text s.stream u.stream [] := by
  cases h with
  | first => exact .refl
  | comma comma => exact covers_of_takes comma

/-- A span that is closed after something has been read ends where the last token has ended. -/
theorem stop_closing_lastEnd {start : Place} (h : start.offset < u.stream.ended) :
    (Span.closing start (u.lastEnd start)).stop.offset = u.stream.ended := by
  unfold TokenStream.ended at h ⊢
  unfold ParseState.lastEnd Span.closing
  cases hlast : u.stream.last with
  | none =>
    rw [hlast] at h
    cases h
  | some last =>
    rw [hlast] at h
    have hle : ¬last.stop.offset < start.offset := Nat.not_lt.mpr (Nat.le_of_lt h)
    simp only [if_neg hle]

theorem stop_spanFrom {start : Place} (h : start.offset < u.stream.ended) :
    (u.spanFrom start).stop.offset = u.stream.ended := by
  have hspan : u.spanFrom start = Span.closing start (u.lastEnd start) := by
    unfold TokenStream.ended at h
    unfold ParseState.spanFrom ParseState.lastEnd
    cases hlast : u.stream.last with
    | none =>
      rw [hlast] at h
      cases h
    | some last => rfl
  rw [hspan]
  exact stop_closing_lastEnd h

/-- The span of a token that has just been left behind. -/
theorem spanFrom_of_advance (hs : s.stream.IsFit text) (h : advance s = .ok () u) :
    u.spanFrom s.place = s.stream.token.span := by
  have hle : ¬s.stream.token.span.stop.offset < s.place.offset :=
    Nat.not_lt.mpr hs.placed.start_le_stop
  unfold ParseState.spanFrom Span.closing
  rw [last_of_advance h]
  simp only [if_neg hle]

section Nodes

variable {c : Category} {n : Node c} {start : Place}

/-- A node whose first token is a word or a bracket. -/
theorem node_of_word (hn : n.IsPlain) (hspan : n.span = u.spanFrom s.place)
    (word : advance s = .ok () t) (hk : isWide s.kind = true)
    (h : Covers text t.stream u.stream n.fragments) :
    Covers text s.stream u.stream [.node n] := by
  have hlt : s.stream.IsFit text → s.stream.front < u.stream.ended := fun hs =>
    Nat.lt_of_lt_of_le (front_lt_of_advance hs hk word) (h (fit_of_advance hs word)).ended_le
  refine Covers.node hn ?_ (fun hlt => ?_) (fun _ => hlt) ((covers_of_advance word).append h)
  · rw [hspan, ParseState.start_spanFrom]
    rfl
  · rw [hspan, stop_spanFrom hlt]

theorem node_of_takes (hn : n.IsPlain) (hspan : n.span = u.spanFrom s.place)
    (opening : Takes k s t) (hk : isWide k = true)
    (h : Covers text t.stream u.stream n.fragments) :
    Covers text s.stream u.stream [.node n] :=
  node_of_word hn hspan opening.2 (opening.1 ▸ hk) h

/-- A node that begins where its first fragment does, or before. -/
theorem node_of_part (hn : n.IsPlain) (hspan : n.span = u.spanFrom start)
    (hstart : start = s.place) (hne : spansOf n.fragments ≠ [])
    (h : Covers text s.stream u.stream n.fragments) : Covers text s.stream u.stream [.node n] := by
  subst hstart
  refine Covers.node hn ?_ (fun hlt => ?_) (fun stretch _ => stretch.front_lt hne) h
  · rw [hspan, ParseState.start_spanFrom]
    rfl
  · rw [hspan, stop_spanFrom hlt]

/-- A node that begins with its first child, or before. -/
theorem node_of_first {c' : Category} {a : Node c'} {fs : List Fragment} (hn : n.IsPlain)
    (hspan : n.span = u.spanFrom start) (hstart : start = s.place)
    (hf : n.fragments = .node a :: fs) (ha : c'.IsPlaced)
    (h : Covers text s.stream u.stream (.node a :: fs)) :
    Covers text s.stream u.stream [.node n] := by
  have hne : spansOf (.node a :: fs) ≠ [] := Node.spansOf_ne_nil ha List.mem_cons_self
  rw [← hf] at h hne
  exact node_of_part hn hspan hstart hne h

/-- A shorthand property, whose value has been read from its first token on as well. -/
theorem covers_shorthand {c' : Category} {key : Key} {value : Node c'} (hplace : c.IsPlaced)
    (hshorthand : n.isShorthand = true) (hf : n.fragments = [.node key, .node value])
    (hspan : n.span = u.spanFrom s.place) (hkey : Covers text s.stream u.stream [.node key])
    (hvalue : Covers text s.stream u.stream [.node value]) :
    Covers text s.stream u.stream [.node n] := by
  refine Covers.shorthand hplace hshorthand hf ?_ (fun hlt => ?_) hkey hvalue
  · rw [hspan, ParseState.start_spanFrom]
    rfl
  · rw [hspan, stop_spanFrom hlt]

end Nodes

/-- A token that has been read as a name or a literal. -/
theorem covers_token {content : String} (hk : isWide s.kind = true) (h : advance s = .ok () u)
    (hcontent : s.stream.IsFit text → content.toList = s.stream.token.text) :
    Covers text s.stream u.stream [.written (u.spanFrom s.place) content] := by
  intro hs
  have hu := covers_of_advance h hs
  have hspan := spanFrom_of_advance hs h
  have hended := ended_of_advance h
  have hlt := front_lt_of_advance hs hk h
  have hle := hs.placed.start_le_stop
  rw [hspan]
  refine hu.only rfl ⟨Nat.le_refl _, hle, by omega, hlt⟩ ?_
  change slice? text _ _ = some content.toList
  rw [hcontent hs]
  exact hs.covered.token.slice

theorem covers_identifier {liberal : Bool} {id : Identifier} (h : identifier liberal s = .ok id u) :
    Covers text s.stream u.stream [.written id.span id.name] := by
  obtain ⟨name, hvalue, hk, word, rfl⟩ := of_identifier h
  have hname : s.kind = .name ∨ ∃ keyword, s.kind = .keyword keyword := by
    refine hk.imp_right fun hk => ?_
    cases hkind : s.kind <;> simp [hkind, TokenKind.isKeyword, TokenKind.keyword?] at hk
    exact ⟨_, rfl⟩
  refine covers_token ?_ word fun hs => ?_
  · rcases hname with hk | ⟨keyword, hk⟩ <;> rw [hk] <;> rfl
  · have hspells := hs.covered.token.spells
    have hvalue' : s.stream.token.value = .name (String.ofList s.stream.token.text) := by
      unfold ParseState.kind at hname
      rcases hname with hk | ⟨keyword, hk⟩ <;> rw [hk] at hspells <;> exact hspells
    cases hvalue.symm.trans hvalue'
    exact String.toList_ofList

theorem covers_literal {lit : Literal} (h : literal s = .ok lit u) :
    Covers text s.stream u.stream [.written lit.span lit.raw] := by
  obtain ⟨value, hvalue, word, rfl⟩ := of_literal h
  refine covers_token ?_ word fun _ => String.toList_ofList
  cases hk : s.kind with
  | eof | template => simp [literalValue?, hk] at hvalue
  | _ => rfl

end Nesting

/-- What holds of the answer to a goal that has been read from `s` to `u`. The left operand of an
operator and the base of a suffix have been read from some state before. A chunk of a template
may be empty, so the token behind the last chunk belongs to it. -/
def Goal.Nests (text : List Char) (g : Goal) (s : ParseState) (r : g.Result) (u : ParseState) :
    Prop :=
  match g, r with
  | .statement, r => Covers text s.stream u.stream [.node r]
  | .statements _ _, r | .declarators _ _, r | .patternMembers _, r =>
    Covers text s.stream u.stream [.node (.ofList r)]
  | .assignment _ _ _, r | .unary _, r | .primary _, r =>
    Covers text s.stream u.stream [.node r.1]
  | .commaOperands _ _ _, r | .parenthesized _ _, r | .members _ _, r =>
    Covers text s.stream u.stream [.node (.ofList r.1)]
  | .operators operand start _ _, r | .suffixes operand start _, r =>
    ∀ first : ParseState, start = first.place →
      Covers text first.stream s.stream [.node operand] →
      Covers text first.stream u.stream [.node r]
  | .elements _ _ _ _ _, r => Covers text s.stream u.stream [.node (.ofHoleyList r.1)]
  | .targets _ _ _ _, r => Covers text s.stream u.stream [.node (.ofHoleyList r)]
  | .chunks, r =>
    ∀ v, advance u = .ok () v → Covers text s.stream v.stream
      (weave (r.1.map fun chunk => .written chunk.span chunk.raw) (r.2.map fun e => .node e))

end EcmaTree
