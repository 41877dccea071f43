import EcmaTree.Proofs.Token.Trail

/-!
# The tokens that have been seen

A stream remembers the tokens that it has left behind. Together with the current one they stand one
behind the other, so a token that takes characters is known by where it begins or ends, and with it
its neighbours.
-/

namespace EcmaTree

/-- Tokens one behind the other. -/
structure AreOrdered (ts : List Token) : Prop where
  pairwise : ts.Pairwise fun a b => a.span.stop.offset ≤ b.span.start.offset
  start_le_stop : ∀ a ∈ ts, a.span.start.offset ≤ a.span.stop.offset

/-- A token that takes characters. -/
def Token.IsWide (a : Token) : Prop :=
  a.span.start.offset < a.span.stop.offset

namespace AreOrdered

variable {ts : List Token} {a b x y : Token}

theorem exists_index (h : [a, b] <:+: ts) : ∃ i, ts[i]? = some a ∧ ts[i + 1]? = some b := by
  obtain ⟨before, behind, rfl⟩ := h
  refine ⟨before.length, ?_, ?_⟩ <;> simp

theorem stop_le_start {i j : Nat} (h : AreOrdered ts) (hi : ts[i]? = some a)
    (hj : ts[j]? = some b) (hlt : i < j) : a.span.stop.offset ≤ b.span.start.offset := by
  obtain ⟨hi', rfl⟩ := List.getElem?_eq_some_iff.mp hi
  obtain ⟨hj', rfl⟩ := List.getElem?_eq_some_iff.mp hj
  exact List.pairwise_iff_getElem.mp h.pairwise i j hi' hj' hlt

/-- What stands before a token is known by where the token begins. -/
theorem before_eq (h : AreOrdered ts) (hab : [a, b] <:+: ts) (hxy : [x, y] <:+: ts)
    (hx : x.IsWide) (hy : y.IsWide) (heq : b.span.start.offset = y.span.start.offset) : a = x := by
  obtain ⟨i, ha, hb⟩ := exists_index hab
  obtain ⟨j, hx', hy'⟩ := exists_index hxy
  unfold Token.IsWide at hx hy
  rcases Nat.lt_trichotomy i j with hlt | rfl | hlt
  · have hxy := h.stop_le_start hx' hy' (Nat.lt_succ_self j)
    rcases Nat.lt_or_eq_of_le (Nat.succ_le_of_lt hlt) with hlt | rfl
    · have hbx := h.stop_le_start hb hx' hlt
      have hwidth := h.start_le_stop b (List.mem_of_getElem? hb)
      omega
    · cases hb.symm.trans hx'
      omega
  · exact Option.some.inj (ha.symm.trans hx')
  · have hyb := h.stop_le_start hy' hb (Nat.succ_lt_succ hlt)
    omega

/-- What stands behind a token is known by where the token ends. -/
theorem behind_eq (h : AreOrdered ts) (hab : [a, b] <:+: ts) (hxy : [x, y] <:+: ts)
    (hx : x.IsWide) (hy : y.IsWide) (heq : a.span.stop.offset = x.span.stop.offset) : b = y := by
  obtain ⟨i, ha, hb⟩ := exists_index hab
  obtain ⟨j, hx', hy'⟩ := exists_index hxy
  unfold Token.IsWide at hx hy
  rcases Nat.lt_trichotomy i j with hlt | rfl | hlt
  · have hax := h.stop_le_start ha hx' hlt
    omega
  · exact Option.some.inj (hb.symm.trans hy')
  · have hxy := h.stop_le_start hx' hy' (Nat.lt_succ_self j)
    rcases Nat.lt_or_eq_of_le (Nat.succ_le_of_lt hlt) with hlt | rfl
    · have hya := h.stop_le_start hy' ha hlt
      have hwidth := h.start_le_stop a (List.mem_of_getElem? ha)
      omega
    · cases ha.symm.trans hy'
      omega

end AreOrdered

namespace TokenStream

variable {s t : TokenStream}

/-- The tokens that have been left behind, and the current one. -/
def seen (s : TokenStream) : List Token :=
  s.tokens.toList ++ [s.token]

theorem seen_of_step (h : Step s t) : t.seen = s.seen ++ [t.token] := by
  obtain ⟨-, -, -, -, htokens⟩ := places_of_read h.2
  unfold seen
  rw [htokens, recorded, Array.toList_push]

theorem seen_prefix_of_follows (h : Follows s t) : s.seen <+: t.seen := by
  induction h with
  | refl => exact List.prefix_rfl
  | tail _ hstep ih =>
    rw [seen_of_step hstep]
    exact ih.trans (List.prefix_append _ _)

/-- A token stands right before the one behind it. -/
theorem adjacent_of_step (h : Step s t) : [s.token, t.token] <:+: t.seen := by
  rw [seen_of_step h]
  exact ⟨s.tokens.toList, [], by simp [seen]⟩

theorem areOrdered_of_step (hs : s.IsPlaced) (ho : AreOrdered s.seen) (h : Step s t) :
    AreOrdered t.seen := by
  have ht := isPlaced_of_read h.2
  have hnext := stop_le_start_of_advance hs h.2
  rw [seen_of_step h]
  constructor
  · refine List.pairwise_append.mpr ⟨ho.pairwise, List.pairwise_singleton _ _, ?_⟩
    intro a ha b hb
    obtain rfl := List.mem_singleton.mp hb
    have hwidth := hs.start_le_stop
    rcases List.mem_append.mp ha with hbefore | hlast
    · have hle := (List.pairwise_append.mp ho.pairwise).2.2 a hbefore _ (List.mem_singleton_self _)
      omega
    · obtain rfl := List.mem_singleton.mp hlast
      exact hnext
  · intro a ha
    rcases List.mem_append.mp ha with hbefore | hlast
    · exact ho.start_le_stop a hbefore
    · obtain rfl := List.mem_singleton.mp hlast
      exact ht.start_le_stop

theorem areOrdered_of_follows (hs : s.IsPlaced) (ho : AreOrdered s.seen) (h : Follows s t) :
    AreOrdered t.seen := by
  induction h with
  | refl => exact ho
  | tail hinit hstep ih => exact areOrdered_of_step (isPlaced_of_follows hs hinit) ih hstep

/-- The tokens of a text stand one behind the other. -/
theorem areOrdered_of_read {text : List Char} (h : read (ofText text) = .ok () s) :
    AreOrdered s.seen := by
  obtain ⟨-, hwidth, -, -, htokens⟩ := places_of_read h
  have hseen : s.seen = [s.token] := by
    unfold seen
    rw [htokens]
    rfl
  rw [hseen]
  exact ⟨List.pairwise_singleton _ _, List.forall_mem_singleton.mpr hwidth⟩

end TokenStream

end EcmaTree
