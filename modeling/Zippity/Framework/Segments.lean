import Mathlib.Algebra.GroupWithZero.Nat
import Mathlib.Data.List.Basic

/-! # Concatenations of announced segments

    A stream that is made of segments, each announced with a size by which a
    reader may skip it without looking at its items.  `tailAt segs k` is what is
    left of the stream after `k` announced positions: segments that end at or
    before the position are skipped by their announced size, and a segment that
    is entered yields its items and may halt the stream after them.

    When every announcement is right the position is a plain offset into the
    concatenation (`tailAt_eq_drop`).
-/

namespace Framework

universe u

/-- A segment of a stream. -/
structure Segment (α : Type u) where
  /-- The announced size, by which the segment is skipped. -/
  size : Nat
  /-- The items it really yields. -/
  items : List α
  /-- Does the stream halt after this segment, when it was entered `k` items from its start? -/
  halts : Nat → Bool

/-- What is left of a stream: the items still to come and whether it gets to its end. -/
structure Tail (α : Type u) where
  items : List α
  complete : Bool

namespace Tail

variable {α : Type u}

/-- The end of the stream. -/
def done : Tail α := ⟨[], true⟩

/-- The stream halted. -/
def halted : Tail α := ⟨[], false⟩

/-- Items in front of a tail. -/
def cons (items : List α) (t : Tail α) : Tail α := ⟨items ++ t.items, t.complete⟩

@[simp] theorem cons_items (xs : List α) (t : Tail α) : (cons xs t).items = xs ++ t.items := rfl

@[simp] theorem cons_complete (xs : List α) (t : Tail α) : (cons xs t).complete = t.complete := rfl

@[simp] theorem cons_nil (t : Tail α) : cons [] t = t := rfl

theorem cons_append (xs ys : List α) (t : Tail α) : cons (xs ++ ys) t = cons xs (cons ys t) := by
  simp [cons]

/-- The items still to come begin `xs`; they are all of `xs` if the stream gets to its end. -/
structure Begins (t : Tail α) (xs : List α) : Prop where
  isPrefix : t.items <+: xs
  all : t.complete = true → t.items = xs

theorem begins_done : (done : Tail α).Begins [] := ⟨List.prefix_rfl, fun _ => rfl⟩

theorem begins_halted (xs : List α) : (halted : Tail α).Begins xs :=
  ⟨List.nil_prefix, fun h => by cases h⟩

theorem Begins.cons {t : Tail α} {ys : List α} (h : t.Begins ys) (xs : List α) :
    (cons xs t).Begins (xs ++ ys) where
  isPrefix := List.prefix_append_right_inj xs |>.mpr h.isPrefix
  all hc := congrArg (xs ++ ·) (h.all hc)

/-- After some items the rest of the stream begins what is left of `zs`. -/
theorem Begins.of_cons {t : Tail α} {xs zs : List α} (h : (Tail.cons xs t).Begins zs) :
    xs <+: zs ∧ t.Begins (zs.drop xs.length) := by
  obtain ⟨rest, hrest⟩ := h.isPrefix
  rw [cons_items, List.append_assoc] at hrest
  subst hrest
  rw [List.drop_left]
  refine ⟨List.prefix_append _ _, List.prefix_append _ _, fun hc => ?_⟩
  exact List.append_cancel_left (h.all hc)

end Tail

namespace Segment

variable {α : Type u}

/-- A segment of known items that is announced exactly and never halts. -/
def plain (items : List α) : Segment α := ⟨items.length, items, fun _ => false⟩

/-- The announced size is right and the stream goes on after the segment. -/
structure Exact (seg : Segment α) : Prop where
  size : seg.items.length = seg.size
  halts : ∀ k, seg.halts k = false

theorem exact_plain (items : List α) : (plain items).Exact := ⟨rfl, fun _ => rfl⟩

end Segment

section tailAt
variable {α : Type u}

/-- What is left of the segments after `k` announced positions. -/
def tailAt : List (Segment α) → Nat → Tail α
  | [], _ => .done
  | seg :: segs, k =>
    if seg.size ≤ k then tailAt segs (k - seg.size)
    else .cons (seg.items.drop k) (if seg.halts k then .halted else tailAt segs 0)

/-- A segment that ends at or before the position is skipped by its announced size. -/
theorem tailAt_skip {seg : Segment α} {segs : List (Segment α)} {k : Nat} (h : seg.size ≤ k) :
    tailAt (seg :: segs) k = tailAt segs (k - seg.size) := by
  simp [tailAt, h]

/-- A segment that the position lies in is entered. -/
theorem tailAt_enter {seg : Segment α} {segs : List (Segment α)} {k : Nat} (h : k < seg.size) :
    tailAt (seg :: segs) k =
      .cons (seg.items.drop k) (if seg.halts k then .halted else tailAt segs 0) := by
  have : ¬ seg.size ≤ k := by omega
  simp [tailAt, this]

/-- Known items are read from their start, also when there are none. -/
theorem tailAt_plain (items : List α) (segs : List (Segment α)) :
    tailAt (.plain items :: segs) 0 = .cons items (tailAt segs 0) := by
  cases items with
  | nil => exact tailAt_skip (Nat.le_refl 0)
  | cons item items => exact tailAt_enter (Nat.zero_lt_succ _)

/-- Skipping whole segments: a position in the part after them. -/
theorem tailAt_append {segs segs' : List (Segment α)} {k : Nat} :
    tailAt (segs ++ segs') ((segs.map Segment.size).sum + k) = tailAt segs' k := by
  induction segs with
  | nil => simp
  | cons seg segs ih =>
    simp only [List.map_cons, List.sum_cons, List.cons_append]
    rw [tailAt_skip (by omega)]
    have hk : seg.size + (segs.map Segment.size).sum + k - seg.size =
        (segs.map Segment.size).sum + k := by omega
    rw [hk, ih]

/-- **Right announcements make positions offsets**: what is left after `k` positions is the
    concatenation of all items without its first `k`. -/
theorem tailAt_eq_drop {segs : List (Segment α)} (h : ∀ seg ∈ segs, seg.Exact) (k : Nat) :
    tailAt segs k = ⟨(segs.flatMap Segment.items).drop k, true⟩ := by
  induction segs generalizing k with
  | nil => simp [tailAt, Tail.done]
  | cons seg segs ih =>
    have hseg : seg.Exact := h seg (by simp)
    have hsegs := ih fun s hs => h s (by simp [hs])
    -- the position is behind the first segment, or in it
    by_cases hk : seg.size ≤ k
    · have hnil : seg.items.drop k = [] := List.drop_eq_nil_of_le (by rw [hseg.size]; exact hk)
      rw [tailAt_skip hk, hsegs, List.flatMap_cons, List.drop_append, hseg.size, hnil,
        List.nil_append]
    · have hk' : k - seg.items.length = 0 := by rw [hseg.size]; omega
      rw [tailAt_enter (by omega), hseg.halts, hsegs, List.flatMap_cons, List.drop_append, hk']
      simp [Tail.cons]

/-- What is left is no more than announced, if no segment has more items than announced. -/
theorem length_tailAt_le {segs : List (Segment α)}
    (h : ∀ seg ∈ segs, seg.items.length ≤ seg.size) (k : Nat) :
    (tailAt segs k).items.length ≤ (segs.map Segment.size).sum - k := by
  induction segs generalizing k with
  | nil => simp [tailAt, Tail.done]
  | cons seg segs ih =>
    have hseg := h seg (by simp)
    have hsegs := ih fun s hs => h s (by simp [hs])
    simp only [List.map_cons, List.sum_cons]
    by_cases hk : seg.size ≤ k
    · rw [tailAt_skip hk]
      have := hsegs (k - seg.size)
      omega
    · have := hsegs 0
      rw [tailAt_enter (by omega)]
      -- a stream that halts is shorter still
      cases seg.halts k with
      | true => simp [Tail.halted]; omega
      | false => simp; omega

/-- A stream read from its start gets to its end only if no segment with announced items halts
    it. -/
theorem halts_eq_false_of_complete {segs : List (Segment α)} (h : (tailAt segs 0).complete = true)
    {seg : Segment α} (hmem : seg ∈ segs) (hpos : 0 < seg.size) : seg.halts 0 = false := by
  induction segs with
  | nil => simp at hmem
  | cons s segs ih =>
    -- a segment that announces nothing is skipped, also from its start
    by_cases hz : s.size ≤ 0
    · rw [tailAt_skip hz, Nat.zero_sub] at h
      rcases List.mem_cons.mp hmem with rfl | hmem
      · omega
      · exact ih h hmem
    · rw [tailAt_enter (by omega)] at h
      cases hs : s.halts 0 with
      | true => simp [hs, Tail.halted] at h
      | false =>
        rcases List.mem_cons.mp hmem with rfl | hmem
        · exact hs
        · exact ih (by simpa [hs] using h) hmem

/-- **Right sizes make positions offsets**, as far as the stream gets: what is left after `k`
    positions begins the concatenation of all items without its first `k`. -/
theorem tailAt_begins {segs : List (Segment α)}
    (hsize : ∀ seg ∈ segs, seg.items.length = seg.size) (k : Nat) :
    (tailAt segs k).Begins ((segs.flatMap Segment.items).drop k) := by
  induction segs generalizing k with
  | nil =>
    rw [List.flatMap_nil, List.drop_nil]
    exact Tail.begins_done
  | cons seg segs ih =>
    have hseg := hsize seg (by simp)
    have hsegs := ih fun s hs => hsize s (by simp [hs])
    rw [List.flatMap_cons, List.drop_append, hseg]
    by_cases hk : seg.size ≤ k
    · rw [tailAt_skip hk, List.drop_eq_nil_of_le (by omega), List.nil_append]
      exact hsegs _
    · have hnext : k - seg.size = 0 := by omega
      rw [tailAt_enter (by omega), hnext]
      apply Tail.Begins.cons
      cases seg.halts k with
      | true => exact Tail.begins_halted _
      | false => exact hsegs 0

/-- A stream of right sizes that is read from its start to its end yields all items. -/
theorem items_of_complete {segs : List (Segment α)} (h : (tailAt segs 0).complete = true)
    (hsize : ∀ seg ∈ segs, seg.items.length = seg.size) :
    (tailAt segs 0).items = segs.flatMap Segment.items :=
  (tailAt_begins hsize 0).all h

/-- Behind segments of right sizes only the stream of the segments after them is read, if the
    stream gets there. -/
theorem drop_tailAt_isPrefix {segs segs' : List (Segment α)}
    (h : ∀ seg ∈ segs, 0 < seg.size → seg.items.length = seg.size) :
    (tailAt (segs ++ segs') 0).items.drop (segs.map Segment.size).sum <+:
      (tailAt segs' 0).items := by
  induction segs with
  | nil => exact List.prefix_rfl
  | cons seg segs ih =>
    have hsegs := ih fun s hs => h s (by simp [hs])
    rw [List.cons_append, List.map_cons, List.sum_cons]
    by_cases hz : seg.size ≤ 0
    · have hzero : seg.size = 0 := by omega
      rw [tailAt_skip hz, hzero, Nat.zero_add]
      exact hsegs
    -- an entered segment has the items that are dropped
    · have hseg := h seg (by simp) (by omega)
      rw [tailAt_enter (by omega), ← List.drop_drop, Tail.cons_items, List.drop_zero, ← hseg,
        List.drop_left]
      cases seg.halts 0 with
      | true => simp [Tail.halted]
      | false => exact hsegs

end tailAt

end Framework
