import EcmaTree.Proofs.Token.Spelling
import Mathlib.Logic.Relation

/-!
# The trail of a text

A step of a token stream leaves a token behind that is not the end of input. A stream that
follows another has made some number of steps. The measure `pending` bounds that number, so
the trail of a text has fuel enough to come to its end.
-/

namespace EcmaTree.TokenStream

variable {s t u : TokenStream}

/-- `t` comes right after `s`, whose token is not the end of input. -/
def Step (s t : TokenStream) : Prop :=
  s.token.kind ≠ .eof ∧ advance s = .ok () t

/-- `t` comes after `s` by some number of steps. -/
abbrev Follows : TokenStream → TokenStream → Prop :=
  Relation.ReflTransGen Step

/-- A bound on the steps that are left before the end of input. -/
def pending (s : TokenStream) : Nat :=
  if s.token.kind = .eof then 0
  else 2 * s.cursor.rest.length + if s.token.kind = .template then 1 else 2

/-- A stream has one next stream at most. -/
theorem rightUnique_step : Relator.RightUnique Step := by
  intro s t u ht hu
  cases ht.2.symm.trans hu.2
  rfl

theorem pending_pos (h : s.token.kind ≠ .eof) : 0 < s.pending := by
  unfold pending
  rw [if_neg h]
  split <;> omega

theorem pending_lt (h : Step s t) : t.pending < s.pending := by
  obtain ⟨hs, ha⟩ := h
  unfold pending
  rw [if_neg hs]
  cases reads_of_advance ha with
  | eof kind rest =>
    rw [if_pos kind]
    split <;> omega
  | chunk within kind le progress =>
    rw [kind, if_neg nofun, if_pos rfl]
    rcases progress with progress | progress
    · split <;> omega
    · rw [if_neg progress]
      omega
  | solid ne_eof ne_template lt wide =>
    rw [if_neg ne_eof, if_neg ne_template]
    split <;> omega

/-- Before any token no template is open, so the first token takes characters. -/
theorem pending_first {text : List Char} (h : read (ofText text) = .ok () s) :
    s.pending ≤ 2 * text.length := by
  unfold pending
  cases reads_of_read h with
  | eof kind rest => simp [kind]
  | chunk within kind le progress =>
    exact absurd (show Context.braceStatement = .quoteTemplate from within) (by decide)
  | solid ne_eof ne_template lt wide =>
    rw [if_neg ne_eof, if_neg ne_template]
    have hlen : s.cursor.rest.length < text.length := lt
    omega

theorem follow_of_eof {fuel : Nat} (h : s.token.kind = .eof) : follow fuel s = ⟨[s], none, s⟩ := by
  cases fuel <;> simp [follow, h]

theorem follow_of_step {fuel : Nat} (h : Step s t) :
    follow (fuel + 1) s = { follow fuel t with states := s :: (follow fuel t).states } := by
  simp [follow, h.1, h.2]

theorem follow_of_error {fuel : Nat} {e : ParseError} (hk : s.token.kind ≠ .eof)
    (h : advance s = .error e t) : follow (fuel + 1) s = ⟨[s], some e, t⟩ := by
  simp [follow, hk, h]

/-- Fuel beyond the bound on the steps that are left adds nothing to a trail. -/
theorem follow_eq_follow {m n : Nat} (hm : s.pending ≤ m) (hn : s.pending ≤ n) :
    follow m s = follow n s := by
  induction m generalizing n s with
  | zero =>
    have hk : s.token.kind = .eof := by
      refine Decidable.not_not.mp fun hk => ?_
      have hpos := pending_pos hk
      omega
    rw [follow_of_eof hk, follow_of_eof hk]
  | succ m ih =>
    by_cases hk : s.token.kind = .eof
    · rw [follow_of_eof hk, follow_of_eof hk]
    · have hpos := pending_pos hk
      obtain ⟨n, rfl⟩ := Nat.exists_eq_succ_of_ne_zero (show n ≠ 0 by omega)
      cases ha : advance s with
      | error e final => rw [follow_of_error hk ha, follow_of_error hk ha]
      | ok u next =>
        have hlt := pending_lt ⟨hk, ha⟩
        have hnext : follow m next = follow n next := ih (by omega) (by omega)
        rw [follow_of_step ⟨hk, ha⟩, follow_of_step ⟨hk, ha⟩, hnext]

/-- With fuel for the steps that are left the trail comes to the end of input. -/
theorem follow_of_follows {fuel : Nat} (hf : Follows s t) (ht : t.token.kind = .eof)
    (hn : s.pending ≤ fuel) : (follow fuel s).error = none ∧ (follow fuel s).final = t := by
  induction hf using Relation.ReflTransGen.head_induction_on generalizing fuel with
  | refl =>
    rw [follow_of_eof ht]
    exact ⟨rfl, rfl⟩
  | head hstep htail ih =>
    have hlt := pending_lt hstep
    obtain ⟨n, rfl⟩ := Nat.exists_eq_succ_of_ne_zero (show fuel ≠ 0 by omega)
    rw [Nat.succ_eq_add_one, follow_of_step hstep]
    exact ih (by omega)

/-- The trail of a text goes on from its first token as long as it can. -/
theorem scan_eq_follow {text : List Char} (h : read (ofText text) = .ok () s) :
    scan text = follow s.pending s := by
  have hpending := pending_first h
  unfold scan
  rw [h]
  exact follow_eq_follow (by omega) (Nat.le_refl _)

/-- The trail of a text ends where any run of steps from its first token ends. -/
theorem scan_of_follows {text : List Char} (h : read (ofText text) = .ok () s)
    (hf : Follows s t) (ht : t.token.kind = .eof) :
    (scan text).error = none ∧ (scan text).final = t := by
  rw [scan_eq_follow h]
  exact follow_of_follows hf ht (Nat.le_refl _)

/-- With fuel for the steps that are left a trail ends at the end of input or where a step fails,
and is one step longer than the trail of its second stream. -/
theorem follow_induction {P : TokenStream → Trail → Prop}
    (ends : ∀ s, s.token.kind = .eof → P s ⟨[s], none, s⟩)
    (fails : ∀ s e t, s.token.kind ≠ .eof → advance s = .error e t → P s ⟨[s], some e, t⟩)
    (steps : ∀ s t trail, Step s t → P t trail → P s { trail with states := s :: trail.states })
    {fuel : Nat} (hfuel : s.pending ≤ fuel) : P s (follow fuel s) := by
  induction fuel generalizing s with
  | zero =>
    have hk : s.token.kind = .eof :=
      Decidable.not_not.mp fun hk => absurd (pending_pos hk) (by omega)
    exact ends s hk
  | succ fuel ih =>
    by_cases hk : s.token.kind = .eof
    · rw [follow_of_eof hk]
      exact ends s hk
    · cases ha : advance s with
      | error e t =>
        rw [follow_of_error hk ha]
        exact fails s e t hk ha
      | ok u t =>
        have hstep : Step s t := ⟨hk, ha⟩
        have hlt := pending_lt hstep
        rw [follow_of_step hstep]
        exact steps s t _ hstep (ih (by omega))

/-- A trail that ends without an error ends at the end of input, and comes by its states. -/
theorem of_follow {fuel : Nat} (hfuel : s.pending ≤ fuel) (h : (follow fuel s).error = none) :
    Follows s (follow fuel s).final ∧ (follow fuel s).final.token.kind = .eof ∧
      ∀ state ∈ (follow fuel s).states, Follows s state := by
  refine follow_induction (P := fun s trail => trail.error = none → Follows s trail.final ∧
    trail.final.token.kind = .eof ∧ ∀ state ∈ trail.states, Follows s state) ?_ ?_ ?_ hfuel h
  · intro s hk _
    exact ⟨.refl, hk, fun state hmem => List.mem_singleton.mp hmem ▸ .refl⟩
  · intro s e t _ _ herror
    cases herror
  · intro s t trail hstep ih herror
    obtain ⟨hfinal, heof, hstates⟩ := ih herror
    refine ⟨.head hstep hfinal, heof, fun state hmem => ?_⟩
    rcases List.mem_cons.mp hmem with rfl | hmem
    · exact .refl
    · exact .head hstep (hstates state hmem)

/-- A trail that ends without an error has a first token. -/
theorem exists_first {text : List Char} (h : (scan text).error = none) :
    ∃ s, read (ofText text) = .ok () s := by
  unfold scan at h
  cases hr : read (ofText text) with
  | ok u s => exact ⟨s, rfl⟩
  | error e s =>
    rw [hr] at h
    cases h

/-- The tokens from the current one on, up to the end of input or the first error. -/
def unread (s : TokenStream) : Nat :=
  (follow s.pending s).states.length

theorem length_follow_le (fuel : Nat) (s : TokenStream) :
    (follow fuel s).states.length ≤ fuel + 1 := by
  induction fuel generalizing s with
  | zero => exact Nat.le_refl _
  | succ fuel ih =>
    unfold follow
    split
    · simp
    · split
      · rename_i next _
        have hle := ih next
        simp only [List.length_cons]
        omega
      · simp

theorem unread_le_pending (s : TokenStream) : s.unread ≤ s.pending + 1 :=
  length_follow_le _ s

/-- The trail ahead goes on behind a step with the trail that is ahead then. -/
theorem follow_pending_of_step (h : Step s t) :
    follow s.pending s =
      { follow t.pending t with states := s :: (follow t.pending t).states } := by
  have hlt := pending_lt h
  obtain ⟨n, hn⟩ := Nat.exists_eq_succ_of_ne_zero (show s.pending ≠ 0 by omega)
  have hnext : follow n t = follow t.pending t := follow_eq_follow (by omega) (Nat.le_refl _)
  rw [hn, Nat.succ_eq_add_one, follow_of_step h, hnext]

/-- A step leaves one token behind. -/
theorem unread_of_step (h : Step s t) : s.unread = t.unread + 1 := by
  unfold unread
  rw [follow_pending_of_step h, List.length_cons]

theorem last_of_advance {u : Unit} (h : advance s = .ok u t) : t.last = some s.token.span := by
  obtain ⟨-, -, -, hlast, -⟩ := places_of_read h
  exact hlast

theorem unread_le_of_follows (h : Follows s t) : t.unread ≤ s.unread := by
  induction h with
  | refl => exact Nat.le_refl _
  | tail _ hstep ih =>
    have heq := unread_of_step hstep
    omega

/-- A stream that comes after another with as many tokens ahead is the same stream. -/
theorem eq_of_follows (h : Follows s t) (hn : s.unread ≤ t.unread) : t = s := by
  cases h with
  | refl => rfl
  | tail hinit hstep =>
    have hle := unread_le_of_follows hinit
    have heq := unread_of_step hstep
    omega

/-- After a step there is a token before the current one. -/
theorem last_isSome_of_follows (h : Follows s t) (hn : t.unread < s.unread) :
    t.last.isSome = true := by
  cases h with
  | refl => exact absurd hn (Nat.lt_irrefl _)
  | tail _ hstep => rw [last_of_advance hstep.2, Option.isSome_some]

/-- The current token lies before the cursor, only the end of input and the chunks of a template
may be empty, a name is no keyword, and the token is spelled as its kind says. -/
structure IsPlaced (s : TokenStream) : Prop where
  start_le_stop : s.token.span.start.offset ≤ s.token.span.stop.offset
  stop_le_cursor : s.token.span.stop.offset ≤ s.cursor.offset
  wide : s.token.kind ≠ .eof → s.token.kind ≠ .template →
    s.token.span.start.offset < s.token.span.stop.offset
  not_keyword : s.token.kind = .name → ∀ name, s.token.value = .name name →
    Keyword.ofWord? name = none
  spelled : IsSpelled s.token.kind s.token.value s.token.text

theorem isPlaced_of_read {u : Unit} (h : read s = .ok u t) : t.IsPlaced := by
  obtain ⟨-, hstart, hstop, -, -⟩ := places_of_read h
  have hspelled := isSpelled_of_read h
  cases reads_of_read h with
  | eof kind =>
    exact ⟨hstart, Nat.le_of_eq hstop, fun he => absurd kind he, fun hn => by simp [kind] at hn,
      hspelled⟩
  | chunk within kind =>
    exact ⟨hstart, Nat.le_of_eq hstop, fun _ ht => absurd kind ht, fun hn => by simp [kind] at hn,
      hspelled⟩
  | solid ne_eof ne_template lt wide not_keyword =>
    exact ⟨hstart, Nat.le_of_eq hstop, fun _ _ => wide, not_keyword, hspelled⟩

/-- The next token begins where the current one has ended, or later. -/
theorem stop_le_start_of_advance {u : Unit} (hs : s.IsPlaced) (h : advance s = .ok u t) :
    s.token.span.stop.offset ≤ t.token.span.start.offset := by
  obtain ⟨hcursor, -, -, -, -⟩ := places_of_read h
  exact Nat.le_trans hs.stop_le_cursor hcursor

theorem isPlaced_of_follows (hs : s.IsPlaced) (h : Follows s t) : t.IsPlaced := by
  induction h with
  | refl => exact hs
  | tail _ hstep _ => exact isPlaced_of_read hstep.2

theorem start_le_start_of_follows (hs : s.IsPlaced) (h : Follows s t) :
    s.token.span.start.offset ≤ t.token.span.start.offset := by
  induction h with
  | refl => exact Nat.le_refl _
  | tail hinit hstep ih =>
    have hplaced := isPlaced_of_follows hs hinit
    have hnext := stop_le_start_of_advance hplaced hstep.2
    have hwidth := hplaced.start_le_stop
    omega

end EcmaTree.TokenStream
