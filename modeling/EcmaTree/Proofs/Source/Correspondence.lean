import EcmaTree.Fault

/-!
# Places that correspond

Two readings of a program, of one text or of two, can be set side by side. A correspondence
says which places of them belong together: those where tokens start, of which the grammar
compares the order, and those where tokens end, which it only hands on.
-/

namespace EcmaTree

structure Correspondence where
  /-- Places where tokens start. -/
  Start : Place → Place → Prop
  /-- Places where tokens start or end. -/
  Stop : Place → Place → Prop
  stop_of_start : ∀ {p p'}, Start p p' → Stop p p'
  lt_iff : ∀ {p p' q q'}, Start p p' → Start q q' → (p'.offset < q'.offset ↔ p.offset < q.offset)
  /-- Cutting off a span that ends before it starts is done in the same way on both sides. -/
  stop_closing : ∀ {p p' q q'}, Start p p' → Stop q q' →
    Stop (Span.closing p q).stop (Span.closing p' q').stop

namespace Correspondence

variable (K : Correspondence)

structure Spans (s s' : Span) : Prop where
  start : K.Start s.start s'.start
  stop : K.Stop s.stop s'.stop

/-- The same fault at places that correspond. -/
structure Errors (e e' : ParseError) : Prop where
  fault_eq : e'.fault = e.fault
  place : K.Stop e.place e'.place

variable {K} {p p' q q' : Place}

theorem offset_eq_iff (hp : K.Start p p') (hq : K.Start q q') :
    p'.offset = q'.offset ↔ p.offset = q.offset := by
  have hlt := K.lt_iff hp hq
  have hgt := K.lt_iff hq hp
  omega

theorem spans_closing (hp : K.Start p p') (hq : K.Stop q q') :
    K.Spans (Span.closing p q) (Span.closing p' q') := by
  constructor
  · rw [Span.start_closing, Span.start_closing]
    exact hp
  · exact K.stop_closing hp hq

theorem errors_start {fault : Fault} (h : K.Start p p') : K.Errors ⟨fault, p⟩ ⟨fault, p'⟩ :=
  ⟨rfl, K.stop_of_start h⟩

/-- Every place belongs to itself if it has a property that every place in question has. -/
def only (P : Place → Prop) : Correspondence where
  Start p p' := p' = p ∧ P p
  Stop p p' := p' = p ∧ P p
  stop_of_start h := h
  lt_iff := by
    rintro p _ q _ ⟨rfl, -⟩ ⟨rfl, -⟩
    exact Iff.rfl
  stop_closing := by
    rintro p _ q _ ⟨rfl, hp⟩ ⟨rfl, hq⟩
    refine ⟨rfl, ?_⟩
    unfold Span.closing
    split
    · exact hp
    · exact hq

variable {P : Place → Prop}

theorem spans_only {s s' : Span} :
    (only P).Spans s s' ↔ s' = s ∧ P s.start ∧ P s.stop := by
  constructor
  · rintro ⟨⟨hstart, hP⟩, hstop, hQ⟩
    obtain ⟨start, stop⟩ := s
    obtain ⟨start', stop'⟩ := s'
    cases hstart
    cases hstop
    exact ⟨rfl, hP, hQ⟩
  · rintro ⟨rfl, hP, hQ⟩
    exact ⟨⟨rfl, hP⟩, rfl, hQ⟩

theorem errors_only {e e' : ParseError} : (only P).Errors e e' ↔ e' = e ∧ P e.place := by
  constructor
  · rintro ⟨hfault, hplace, hP⟩
    obtain ⟨fault, place⟩ := e
    obtain ⟨fault', place'⟩ := e'
    cases hfault
    cases hplace
    exact ⟨rfl, hP⟩
  · rintro ⟨rfl, hP⟩
    exact ⟨rfl, rfl, hP⟩

end Correspondence

end EcmaTree
