import Mathlib.Data.List.Pairwise
import Mathlib.Order.Defs.LinearOrder

/-!
# Spans

Half-open intervals of natural numbers, and lists of them in increasing order with gaps in
between.  A span is put in front of such a list by `coalesce`, which joins it with the first
one when there is no gap.

## Main definitions

* `Span`, `Span.Has`, `Covers` — intervals and what they cover.
* `Gapped` — increasing, with a gap between any two.
* `coalesce` — a span in front of a list.

## Main results

* `covers_coalesce`, `Gapped.coalesce` — `coalesce` covers the same, with gaps.
* `Gapped.single` — a stretch that is covered lies in one span.
-/

namespace Xv6.Spans

/-- The numbers from `start` on, `len` of them. -/
structure Span where
  start : ℕ
  len : ℕ
  deriving DecidableEq

namespace Span

def stop (b : Span) : ℕ := b.start + b.len

def Has (b : Span) (x : ℕ) : Prop := b.start ≤ x ∧ x < b.stop

end Span

/-- One of the spans has `x`. -/
def Covers (l : List Span) (x : ℕ) : Prop := ∃ b ∈ l, b.Has x

/-- The spans increase, and there is a gap between any two. -/
def Gapped (l : List Span) : Prop := l.Pairwise fun b c => b.stop < c.start

/-- Span `b` in front of a list, joined with the first one when they touch. -/
def coalesce (b : Span) : List Span → List Span
  | [] => [b]
  | c :: l => if b.stop = c.start then ⟨b.start, b.len + c.len⟩ :: l else b :: c :: l

variable {b c : Span} {l m : List Span} {x y n : ℕ}

theorem covers_cons : Covers (b :: l) x ↔ b.Has x ∨ Covers l x := by
  simp [Covers]

theorem covers_append : Covers (l ++ m) x ↔ Covers l x ∨ Covers m x := by
  simp only [Covers, List.mem_append, or_and_right, exists_or]

theorem not_covers_nil : ¬ Covers [] x := by simp [Covers]

theorem covers_coalesce : Covers (coalesce b l) x ↔ b.Has x ∨ Covers l x := by
  cases l with
  | nil => simp [coalesce, covers_cons]
  | cons c l =>
    simp only [coalesce]
    split
    · rename_i htouch
      simp only [covers_cons, ← or_assoc]
      refine or_congr_left ?_
      simp only [Span.Has, Span.stop] at htouch ⊢
      omega
    · simp only [covers_cons]

/-- A span before a list keeps the gaps. -/
theorem Gapped.coalesce (h : Gapped l) (hb : ∀ c ∈ l, b.stop ≤ c.start) :
    Gapped (coalesce b l) := by
  cases l with
  | nil => exact List.pairwise_singleton _ _
  | cons c l =>
    obtain ⟨hc, hl⟩ := List.pairwise_cons.mp h
    simp only [Spans.coalesce]
    split
    · rename_i htouch
      refine List.pairwise_cons.mpr ⟨fun d hd => ?_, hl⟩
      have := hc d hd
      simp only [Span.stop] at this htouch ⊢
      omega
    · rename_i hgap
      refine List.pairwise_cons.mpr ⟨fun d hd => ?_, h⟩
      have hbc := hb c List.mem_cons_self
      rcases List.mem_cons.mp hd with rfl | hd
      · omega
      · have := hc d hd
        simp only [Span.stop] at this hbc hgap ⊢
        omega

/-- What `coalesce` puts first starts where `b` does. -/
theorem start_of_mem_coalesce (hc : c ∈ coalesce b l) : c.start = b.start ∨ c ∈ l := by
  cases l with
  | nil =>
    obtain rfl : c = b := by simpa [coalesce] using hc
    exact .inl rfl
  | cons d l =>
    simp only [coalesce] at hc
    split at hc
    · rcases List.mem_cons.mp hc with rfl | hc
      · exact .inl rfl
      · exact .inr (List.mem_cons_of_mem d hc)
    · rcases List.mem_cons.mp hc with rfl | hc
      · exact .inl rfl
      · exact .inr hc

theorem length_coalesce_le (b : Span) (l : List Span) : (coalesce b l).length ≤ l.length + 1 := by
  cases l with
  | nil => simp [coalesce]
  | cons c l =>
    simp only [coalesce]
    split <;> simp

theorem pos_coalesce (hb : 0 < b.len) (hl : ∀ c ∈ l, 0 < c.len) :
    ∀ c ∈ coalesce b l, 0 < c.len := by
  cases l with
  | nil => simpa [coalesce] using hb
  | cons d l =>
    simp only [coalesce]
    split
    · intro c hc
      rcases List.mem_cons.mp hc with rfl | hc
      · exact Nat.add_pos_left hb _
      · exact hl c (List.mem_cons_of_mem d hc)
    · intro c hc
      rcases List.mem_cons.mp hc with rfl | hc
      · exact hb
      · exact hl c hc

/-- Of two spans one is wholly before the other. -/
theorem Gapped.order (h : Gapped l) (hb : b ∈ l) (hc : c ∈ l) (hbc : b ≠ c) :
    b.stop < c.start ∨ c.stop < b.start := by
  induction l with
  | nil => cases hb
  | cons d l ih =>
    obtain ⟨hd, hrest⟩ := List.pairwise_cons.mp h
    rcases List.mem_cons.mp hb with rfl | hb'
    · rcases List.mem_cons.mp hc with rfl | hc'
      · exact absurd rfl hbc
      · exact .inl (hd c hc')
    · rcases List.mem_cons.mp hc with rfl | hc'
      · exact .inr (hd b hb')
      · exact ih hrest hb' hc'

/-- A span covers nothing that the others cover. -/
theorem Gapped.not_covers (h : Gapped (l ++ c :: m)) (hc : c.Has x) : ¬ Covers (l ++ m) x := by
  rintro ⟨d, hd, hx⟩
  obtain ⟨-, hcm, hlc⟩ := List.pairwise_append.mp h
  simp only [Span.Has] at hc hx
  rcases List.mem_append.mp hd with hd | hd
  · have := hlc d hd c List.mem_cons_self
    omega
  · have := (List.pairwise_cons.mp hcm).1 d hd
    omega

theorem Gapped.remove (h : Gapped (l ++ c :: m)) : Gapped (l ++ m) :=
  h.sublist ((List.sublist_cons_self c m).append_left l)

/-- A span can become shorter. -/
theorem Gapped.shrink (h : Gapped (l ++ c :: m)) {n : ℕ} (hn : n ≤ c.len) :
    Gapped (l ++ ⟨c.start, n⟩ :: m) := by
  obtain ⟨hl, hcm, hlc⟩ := List.pairwise_append.mp h
  obtain ⟨hc, hm⟩ := List.pairwise_cons.mp hcm
  refine List.pairwise_append.mpr ⟨hl, List.pairwise_cons.mpr ⟨fun d hd => ?_, hm⟩, ?_⟩
  · have := hc d hd
    simp only [Span.stop] at this ⊢
    omega
  · intro d hd e he
    rcases List.mem_cons.mp he with rfl | he
    · exact hlc d hd c List.mem_cons_self
    · exact hlc d hd e (List.mem_cons_of_mem c he)

/-- **A stretch that is covered lies in one span.** -/
theorem Gapped.single (h : Gapped l) (hxy : x ≤ y) (hcov : ∀ z, x ≤ z → z ≤ y → Covers l z) :
    ∃ b ∈ l, b.start ≤ x ∧ y < b.stop := by
  obtain ⟨b, hb, hx⟩ := hcov x (Nat.le_refl x) hxy
  refine ⟨b, hb, hx.1, ?_⟩
  by_contra hy
  obtain ⟨c, hc, hstop⟩ := hcov b.stop (Nat.le_of_lt hx.2) (Nat.le_of_not_lt hy)
  have hbc : b ≠ c := by
    rintro rfl
    exact Nat.lt_irrefl _ hstop.2
  simp only [Span.Has] at hx hstop
  rcases h.order hb hc hbc with hlt | hlt <;> omega

theorem Gapped.length_le (h : Gapped l) (hl : ∀ b ∈ l, x ≤ b.start ∧ b.start ≤ y)
    (hxy : x ≤ y + 1) : x + l.length ≤ y + 1 := by
  induction l generalizing x with
  | nil => exact hxy
  | cons b l ih =>
    obtain ⟨hb, hrest⟩ := List.pairwise_cons.mp h
    have hx := hl b List.mem_cons_self
    have hle : b.start + 1 + l.length ≤ y + 1 := by
      refine ih hrest (fun c hc => ⟨?_, (hl c (List.mem_cons_of_mem b hc)).2⟩) (by omega)
      have := hb c hc
      simp only [Span.stop] at this
      omega
    simp only [List.length_cons]
    omega

/-- A number that starts no span splits the list. -/
theorem Gapped.split (h : Gapped l) (hfirst : ∃ b, l.head? = some b ∧ b.start < x)
    (hx : ∀ b ∈ l, b.start ≠ x) : ∃ front q back, l = front ++ q :: back ∧ q.start < x ∧
      (∀ b ∈ front, b.start < x) ∧ ∀ b ∈ back, x < b.start := by
  induction l with
  | nil =>
    obtain ⟨b, hb, -⟩ := hfirst
    cases hb
  | cons b l ih =>
    obtain ⟨c, hc, hlt⟩ := hfirst
    obtain rfl : b = c := Option.some.inj hc
    obtain ⟨hb, hrest⟩ := List.pairwise_cons.mp h
    by_cases hnext : ∃ d, l.head? = some d ∧ d.start < x
    · obtain ⟨front, q, back, rfl, hq, hfront, hback⟩ :=
        ih hrest hnext fun d hd => hx d (List.mem_cons_of_mem b hd)
      refine ⟨b :: front, q, back, rfl, hq, fun d hd => ?_, hback⟩
      rcases List.mem_cons.mp hd with rfl | hd
      · exact hlt
      · exact hfront d hd
    · refine ⟨[], b, l, rfl, hlt, by simp, fun d hd => ?_⟩
      cases l with
      | nil => cases hd
      | cons e l =>
        have he : x < e.start := by
          have hne := hx e (List.mem_cons_of_mem b List.mem_cons_self)
          have hnot : ¬ e.start < x := fun he => hnext ⟨e, rfl, he⟩
          omega
        rcases List.mem_cons.mp hd with rfl | hd
        · exact he
        · have := (List.pairwise_cons.mp hrest).1 d hd
          simp only [Span.stop] at this
          omega

end Xv6.Spans
