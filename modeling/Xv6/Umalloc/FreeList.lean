import Xv6.Umalloc.Model

/-!
# The free list

The free list is a circular list through `base`, in the order of addresses, and its blocks have
gaps between them.

## Main definitions

* `FreeList s R` — the blocks of the free list are `R`, from `base` on.

## Main results

* `FreeList.free` — `free` finds the place of a block and puts it there.
* `FreeList.search_found`, `FreeList.search_around` — the loop of `malloc` comes to a block that
  is large enough, or once around the list.
* `FreeList.take` — what `malloc` takes out of the list.
-/

namespace Xv6.Umalloc

open Function LinkedCycle Spans

structure FreeList (s : State) (R : List Span) : Prop where
  head : R.head? = some ⟨s.base, 0⟩
  gaps : Gapped R
  pos : ∀ b ∈ R.tail, 0 < b.len
  ring : Loop s.ptr (R.map Span.start)
  sizes : ∀ b ∈ R, 8 * s.size b.start = b.len
  freep : s.freep ∈ R.map Span.start

variable {s s' : State} {R front back l r : List Span} {b q c : Span} {n x : ℕ}

/-! ## The list -/

/-- The headers of the list are all that matters. -/
theorem FreeList.congr (h : FreeList s R) (hbase : s'.base = s.base) (hfreep : s'.freep = s.freep)
    (hptr : ∀ a ∈ R.map Span.start, s'.ptr a = s.ptr a)
    (hsize : ∀ a ∈ R.map Span.start, s'.size a = s.size a) : FreeList s' R := by
  obtain ⟨a, hring⟩ := h.ring
  refine ⟨by rw [hbase, h.head], h.gaps, h.pos, ⟨a, hring.congr hptr⟩, fun b hb => ?_, ?_⟩
  · rw [hsize _ (List.mem_map_of_mem hb)]
    exact h.sizes b hb
  · rw [hfreep]
    exact h.freep

/-- A block of the list is `base`, or it is behind it. -/
theorem FreeList.mem_cases (h : FreeList s R) (hb : b ∈ R) : b = ⟨s.base, 0⟩ ∨ b ∈ R.tail := by
  obtain ⟨d, l, rfl⟩ := List.exists_cons_of_ne_nil (List.ne_nil_of_mem hb)
  have hhead := h.head
  obtain rfl : d = ⟨s.base, 0⟩ := by simpa using hhead
  exact List.mem_cons.mp hb

/-- Where the header of a block points to. -/
theorem FreeList.ptr_eq (h : FreeList s (l ++ b :: r)) :
    s.ptr b.start = (r.head?.map Span.start).getD s.base := by
  have hring := h.ring
  cases r with
  | cons c r =>
    rw [List.map_append] at hring
    exact hring.next_eq
  | nil =>
    rw [List.map_append] at hring
    have hrot := hring.rotate
    cases l with
    | nil =>
      have hhead := h.head
      obtain rfl : b = ⟨s.base, 0⟩ := by simpa using hhead
      exact loop_cons.mp hrot
    | cons d l =>
      have hhead := h.head
      obtain rfl : d = ⟨s.base, 0⟩ := by simpa using hhead
      exact Loop.next_eq (l := []) hrot

theorem FreeList.base_le (h : FreeList s R) (hb : b ∈ R) : s.base ≤ b.start := by
  obtain ⟨d, l, rfl⟩ := List.exists_cons_of_ne_nil (List.ne_nil_of_mem hb)
  have hhead := h.head
  obtain rfl : d = ⟨s.base, 0⟩ := by simpa using hhead
  rcases List.mem_cons.mp hb with rfl | hb
  · exact Nat.le_refl _
  · have := (List.pairwise_cons.mp h.gaps).1 b hb
    simp only [Span.stop] at this
    omega

/-- The blocks before and behind one, by their addresses. -/
theorem Gapped.around (h : Gapped (front ++ q :: back)) :
    (∀ c ∈ front, c.stop < q.start) ∧ ∀ c ∈ back, q.stop < c.start := by
  obtain ⟨-, hq, hfront⟩ := List.pairwise_append.mp h
  exact ⟨fun c hc => hfront c hc q List.mem_cons_self, (List.pairwise_cons.mp hq).1⟩

/-! ## The loop of `free` -/

section

variable (h : FreeList s (front ++ q :: back))
include h

theorem FreeList.not_ends_front (hq : q.start < x) (hb : b ∈ front) :
    ends s.ptr x b.start = false := by
  obtain ⟨l, r, rfl⟩ := List.append_of_mem hb
  have hfront := (Gapped.around h.gaps).1
  rw [List.append_assoc, List.cons_append] at h
  have hptr := h.ptr_eq
  have haround := (Gapped.around h.gaps).2
  -- the next block is at most `q`
  obtain ⟨d, hd, hdq, hbd⟩ : ∃ d, s.ptr b.start = d ∧ d < x ∧ b.start < d := by
    cases r with
    | nil =>
      refine ⟨q.start, hptr, hq, ?_⟩
      have := haround q (by simp)
      simp only [Span.stop] at this
      omega
    | cons e r =>
      refine ⟨e.start, hptr, ?_, ?_⟩
      · have := hfront e (by simp)
        simp only [Span.stop] at this
        omega
      · have := haround e (by simp)
        simp only [Span.stop] at this
        omega
  simp only [ends, hd]
  simp
  omega

theorem FreeList.not_ends_back (hbase : s.base < x) (hx : ∀ b ∈ back, x < b.start) (hb : b ∈ back) :
    ends s.ptr x b.start = false := by
  obtain ⟨l, r, rfl⟩ := List.append_of_mem hb
  rw [← List.cons_append, ← List.append_assoc] at h
  have hptr := h.ptr_eq
  have haround := (Gapped.around h.gaps).2
  have hbx := hx b (by simp)
  cases r with
  | nil =>
    simp only [List.head?_nil, Option.map_none, Option.getD_none] at hptr
    simp only [ends, hptr]
    simp
    omega
  | cons d r =>
    have hd := haround d (by simp)
    simp only [Span.stop] at hd
    simp only [List.head?_cons, Option.map_some, Option.getD_some] at hptr
    simp only [ends, hptr]
    simp
    omega

theorem FreeList.ends_at (hq : q.start < x) (hx : ∀ b ∈ back, x < b.start) :
    ends s.ptr x q.start = true := by
  have hptr := h.ptr_eq
  cases back with
  | nil =>
    have hbase := h.base_le (b := q) (by simp)
    simp only [List.head?_nil, Option.map_none, Option.getD_none] at hptr
    simp only [ends, hptr]
    simp
    omega
  | cons c back =>
    have hc := hx c List.mem_cons_self
    simp only [List.head?_cons, Option.map_some, Option.getD_some] at hptr
    simp only [ends, hptr]
    simp
    omega

/-- **The loop of `free` ends** at the last block before the one to be freed, wherever it
starts. -/
theorem FreeList.walk_eq (hbase : s.base < x) (hq : q.start < x) (hx : ∀ b ∈ back, x < b.start)
    (hn : (front ++ q :: back).length ≤ n) :
    walk s.ptr (ends s.ptr x) n s.freep = some q.start := by
  have hring := h.ring
  obtain ⟨e, he, hfreep⟩ := List.mem_map.mp h.freep
  have hends := h.ends_at hq hx
  rw [← hfreep]
  simp only [List.length_append, List.length_cons] at hn
  rcases List.mem_append.mp he with he | he
  · -- from a block before it
    obtain ⟨f, g, rfl⟩ := List.append_of_mem he
    have hpath : Trail s.ptr e.start ((e :: g).map Span.start) q.start := by
      simp only [List.map_append, List.map_cons] at hring
      exact hring.path
    refine walk_trail hpath ?_ hends ?_
    · intro y hy
      obtain ⟨d, hd, rfl⟩ := List.mem_map.mp hy
      exact h.not_ends_front hq (List.mem_append_right f hd)
    · simp only [List.length_map, List.length_cons, List.length_append] at hn ⊢
      omega
  · rcases List.mem_cons.mp he with rfl | he
    · exact walk_trail (l := []) rfl (by simp) hends (by simp only [List.length_nil]; omega)
    · -- from a block behind it, through `base`
      obtain ⟨f, g, rfl⟩ := List.append_of_mem he
      have hpath : Trail s.ptr e.start ((e :: (g ++ front)).map Span.start) q.start := by
        have hrot : Loop s.ptr ([] ++ e.start :: (g ++ front).map Span.start ++
            q.start :: f.map Span.start) := by
          have hsplit : (front ++ q :: (f ++ e :: g)).map Span.start =
              (front ++ q :: f).map Span.start ++ (e :: g).map Span.start := by simp
          rw [hsplit] at hring
          simpa using hring.rotate
        exact hrot.path
      refine walk_trail hpath ?_ hends ?_
      · intro y hy
        obtain ⟨d, hd, rfl⟩ := List.mem_map.mp hy
        rcases List.mem_cons.mp hd with rfl | hd
        · exact h.not_ends_back hbase hx (by simp)
        · rcases List.mem_append.mp hd with hd | hd
          · exact h.not_ends_back hbase hx (by simp [hd])
          · exact h.not_ends_front hq hd
      · simp only [List.length_map, List.length_cons, List.length_append] at hn ⊢
        omega

end

/-! ## What `free` does with the list -/

/-- The first half of `free`: the block, joined with the one behind it if they touch. -/
structure Joined (s s₁ : State) (front : List Span) (q b : Span) (back : List Span) : Prop where
  frame : s₁.base = s.base ∧ s₁.top = s.top ∧ s₁.live = s.live ∧ s₁.regions = s.regions
  sizes : ∀ a, a ≠ b.start → s₁.size a = s.size a
  list : ∃ m rest z, coalesce b back = ⟨b.start, m⟩ :: rest ∧ 8 * s₁.size b.start = m ∧
    s₁.ptr = update s.ptr b.start z ∧
    Trail s.ptr z ((rest ++ front).map Span.start) q.start

/-- The rest of the list, from the block behind `q` on. -/
theorem FreeList.path_back (h : FreeList s (front ++ q :: back)) :
    Trail s.ptr (s.ptr q.start) ((back ++ front).map Span.start) q.start := by
  have hring := h.ring
  rw [List.map_append] at hring
  have hrot := hring.rotate
  rw [List.map_cons, List.cons_append, loop_cons] at hrot
  rw [List.map_append]
  exact hrot

theorem FreeList.joinNext (h : FreeList s (front ++ q :: back))
    (hsize : 8 * s.size b.start = b.len) (hbase : s.base < b.start) :
    Joined s (joinNext s q.start b.start) front q b back := by
  unfold Umalloc.joinNext
  have hptr := h.ptr_eq
  have hpath := h.path_back
  cases back with
  | nil =>
    -- the block behind it is `base`, which is before it
    simp only [List.head?_nil, Option.map_none, Option.getD_none] at hptr
    rw [if_neg (by rw [hptr]; omega)]
    exact ⟨⟨rfl, rfl, rfl, rfl⟩, fun _ _ => rfl, b.len, [], _, rfl, hsize, rfl, hpath⟩
  | cons c back =>
    simp only [List.head?_cons, Option.map_some, Option.getD_some] at hptr
    have hc := h.sizes c (by simp)
    split
    · rename_i htouch
      refine ⟨⟨rfl, rfl, rfl, rfl⟩, fun a ha => update_of_ne ha _ _,
        b.len + c.len, back, _, ?_, ?_, rfl, ?_⟩
      · rw [coalesce, if_pos (by simp only [Span.stop]; omega)]
      · simp only [update_self, hptr]
        omega
      · simp only [hptr] at hpath ⊢
        exact hpath.2
    · rename_i htouch
      refine ⟨⟨rfl, rfl, rfl, rfl⟩, fun _ _ => rfl, b.len, c :: back, _, ?_, hsize, rfl, hpath⟩
      rw [coalesce, if_neg (by simp only [Span.stop]; omega)]

section Lists

variable {base : ℕ}

/-- The list with a block put in has gaps. -/
theorem gapped_insert (h : Gapped (front ++ q :: back)) (hq : q.stop ≤ b.start)
    (hback : ∀ c ∈ back, b.stop ≤ c.start) : Gapped (front ++ coalesce q (coalesce b back)) := by
  obtain ⟨hfront, -⟩ := Gapped.around h
  obtain ⟨hgfront, hgq, -⟩ := List.pairwise_append.mp h
  obtain ⟨hqback, hgback⟩ := List.pairwise_cons.mp hgq
  have hgjoin : Gapped (coalesce q (coalesce b back)) := by
    refine Gapped.coalesce (Gapped.coalesce hgback hback) fun c hc => ?_
    rcases start_of_mem_coalesce hc with hc | hc
    · rw [hc]
      exact hq
    · exact Nat.le_of_lt (hqback c hc)
  refine List.pairwise_append.mpr ⟨hgfront, hgjoin, fun c hc d hd => ?_⟩
  have hcq := hfront c hc
  rcases start_of_mem_coalesce hd with hd | hd
  · rw [hd]
    exact hcq
  · have hqd : q.stop ≤ d.start := by
      rcases start_of_mem_coalesce hd with hd | hd
      · rw [hd]
        exact hq
      · exact Nat.le_of_lt (hqback d hd)
    simp only [Span.stop] at hcq hqd ⊢
    omega

/-- `base` is never joined with another block. -/
theorem coalesce_base (hbase : base < b.start) :
    coalesce ⟨base, 0⟩ (coalesce b back) = ⟨base, 0⟩ :: coalesce b back := by
  cases hjoin : coalesce b back with
  | nil => rfl
  | cons c rest =>
    have hc : base ≠ c.start := by
      rcases start_of_mem_coalesce (hjoin ▸ List.mem_cons_self) with hc | hc
      · omega
      · cases back with
        | nil => cases hc
        | cons d back =>
          simp only [coalesce] at hjoin
          split at hjoin
          · obtain ⟨rfl, -⟩ := List.cons.inj hjoin
            exact Nat.ne_of_lt hbase
          · obtain ⟨rfl, -⟩ := List.cons.inj hjoin
            exact Nat.ne_of_lt hbase
    rw [coalesce, if_neg (by simpa [Span.stop] using hc)]

theorem head_insert (hhead : (front ++ q :: back).head? = some ⟨base, 0⟩) (hbase : base < b.start) :
    (front ++ coalesce q (coalesce b back)).head? = some ⟨base, 0⟩ := by
  cases front with
  | nil =>
    obtain rfl : q = ⟨base, 0⟩ := by simpa using hhead
    rw [coalesce_base hbase]
    rfl
  | cons d front => simpa using hhead

theorem pos_insert (hhead : (front ++ q :: back).head? = some ⟨base, 0⟩) (hbase : base < b.start)
    (hb : 0 < b.len) (hpos : ∀ c ∈ (front ++ q :: back).tail, 0 < c.len) :
    ∀ c ∈ (front ++ coalesce q (coalesce b back)).tail, 0 < c.len := by
  cases front with
  | nil =>
    obtain rfl : q = ⟨base, 0⟩ := by simpa using hhead
    rw [List.nil_append, coalesce_base hbase]
    exact pos_coalesce hb hpos
  | cons d front =>
    simp only [List.cons_append, List.tail_cons] at hpos ⊢
    have hjoin := pos_coalesce (hpos q (by simp)) (l := coalesce b back)
      (pos_coalesce hb fun c hc => hpos c (by simp [hc]))
    intro c hc
    rcases List.mem_append.mp hc with hc | hc
    · exact hpos c (by simp [hc])
    · exact hjoin c hc

end Lists

theorem joinPrev_frame (s₁ : State) (p bp : ℕ) :
    (joinPrev s₁ p bp).base = s₁.base ∧ (joinPrev s₁ p bp).top = s₁.top ∧
      (joinPrev s₁ p bp).live = s₁.live ∧ (joinPrev s₁ p bp).regions = s₁.regions := by
  unfold joinPrev
  split <;> simp

theorem joinPrev_size (s₁ : State) {a p : ℕ} (bp : ℕ) (ha : a ≠ p) :
    (joinPrev s₁ p bp).size a = s₁.size a := by
  unfold joinPrev
  split <;> simp [ha]

/-- The second half of `free`. -/
theorem FreeList.joinPrev (h : FreeList s (front ++ q :: back)) {s₁ : State}
    (hj : Joined s s₁ front q b back) (hbase : s.base < b.start) (hb : 0 < b.len)
    (hlt : q.start < b.start) (hq : q.stop ≤ b.start) (hback : ∀ c ∈ back, b.stop ≤ c.start) :
    FreeList { joinPrev s₁ q.start b.start with freep := q.start }
      (front ++ coalesce q (coalesce b back)) := by
  have hgaps := gapped_insert h.gaps hq hback
  have hhead := head_insert h.head hbase
  have hpos := pos_insert h.head hbase hb h.pos
  obtain ⟨m, rest, z, hjoin, hm, hptr, hpath⟩ := hj.list
  obtain ⟨hfront, -⟩ := Gapped.around h.gaps
  have hqsize := h.sizes q (by simp)
  have hqsize₁ : 8 * s₁.size q.start = q.len := by rw [hj.sizes q.start (Nat.ne_of_lt hlt), hqsize]
  have hstart : ∀ c ∈ front, c.start < q.start := fun c hc => by
    have := hfront c hc
    simp only [Span.stop] at this
    omega
  -- the blocks of `rest` are behind the new one, and are in the list already
  have hrest : ∀ c ∈ rest, b.start < c.start ∧ c ∈ back := by
    intro c hc
    have hcjoin : c ∈ coalesce b back := by rw [hjoin]; exact List.mem_cons_of_mem _ hc
    have hgjoin : Gapped (coalesce b back) := Gapped.coalesce
      (List.pairwise_cons.mp (List.pairwise_append.mp h.gaps).2.1).2 hback
    rw [hjoin] at hgjoin
    have hgap := (List.pairwise_cons.mp hgjoin).1 c hc
    simp only [Span.stop] at hgap
    refine ⟨by omega, ?_⟩
    rcases start_of_mem_coalesce hcjoin with heq | hmem
    · omega
    · exact hmem
  have hnotin : ∀ a, q.start ≤ a → a ≤ b.start → a ∉ (rest ++ front).map Span.start := by
    intro a hqa hab hmem
    obtain ⟨c, hc, rfl⟩ := List.mem_map.mp hmem
    rcases List.mem_append.mp hc with hc | hc
    · have := (hrest c hc).1
      omega
    · have := hstart c hc
      omega
  have hxq := hnotin q.start (Nat.le_refl _) (Nat.le_of_lt hlt)
  have hxb := hnotin b.start (Nat.le_of_lt hlt) (Nat.le_refl _)
  -- the sizes of all other blocks of the list stay
  have hsame : ∀ c, c ∈ front ∨ c ∈ rest → c.start ≠ q.start ∧ 8 * s₁.size c.start = c.len := by
    intro c hc
    rcases hc with hc | hc
    · have hclt := hstart c hc
      refine ⟨Nat.ne_of_lt hclt, ?_⟩
      rw [hj.sizes c.start (by omega)]
      exact h.sizes c (by simp [hc])
    · obtain ⟨hclt, hmem⟩ := hrest c hc
      refine ⟨by omega, ?_⟩
      rw [hj.sizes c.start (by omega)]
      exact h.sizes c (by simp [hmem])
  rw [hjoin] at hgaps hhead hpos ⊢
  unfold Umalloc.joinPrev
  split
  · rename_i htouch
    have hlist : coalesce q (⟨b.start, m⟩ :: rest) = ⟨q.start, q.len + m⟩ :: rest := by
      rw [coalesce, if_pos (by simp only [Span.stop]; omega)]
    rw [hlist] at hgaps hhead hpos ⊢
    refine ⟨by rw [hhead, hj.frame.1], hgaps, hpos, ?_, fun c hc => ?_, by simp⟩
    · have hcycle := loop_skip hpath hxq hxb
      rw [hptr]
      simp only [update_self]
      rw [List.map_append] at hcycle
      have hrot : Loop (update (update s.ptr b.start z) q.start z)
          ((q.start :: rest.map Span.start) ++ front.map Span.start) := hcycle
      simpa using hrot.rotate
    · rcases List.mem_append.mp hc with hc | hc
      · obtain ⟨hne, hsize⟩ := hsame c (.inl hc)
        simp only [update_of_ne hne, hsize]
      · rcases List.mem_cons.mp hc with rfl | hc
        · simp only [update_self]
          omega
        · obtain ⟨hne, hsize⟩ := hsame c (.inr hc)
          simp only [update_of_ne hne, hsize]
  · rename_i htouch
    have hlist : coalesce q (⟨b.start, m⟩ :: rest) = q :: ⟨b.start, m⟩ :: rest := by
      rw [coalesce, if_neg (by simp only [Span.stop]; omega)]
    rw [hlist] at hgaps hhead hpos ⊢
    refine ⟨by rw [hhead, hj.frame.1], hgaps, hpos, ?_, fun c hc => ?_, by simp⟩
    · have hcycle := loop_splice hpath hxq hxb (Nat.ne_of_gt hlt)
      rw [hptr]
      rw [List.map_append] at hcycle
      have hrot : Loop (update (update s.ptr b.start z) q.start b.start)
          ((q.start :: b.start :: rest.map Span.start) ++ front.map Span.start) := hcycle
      simpa using hrot.rotate
    · rcases List.mem_append.mp hc with hc | hc
      · exact (hsame c (.inl hc)).2
      · rcases List.mem_cons.mp hc with rfl | hc
        · exact hqsize₁
        · rcases List.mem_cons.mp hc with rfl | hc
          · exact hm
          · exact (hsame c (.inr hc)).2

/-- What `free` does: the block is in the list, and all else is as it was. -/
structure Freed (s s' : State) (R : List Span) (b : Span) (R' : List Span) : Prop where
  list : FreeList s' R'
  frame : s'.base = s.base ∧ s'.top = s.top ∧ s'.live = s.live ∧ s'.regions = s.regions
  sizes : ∀ a, a ≠ b.start → a ∉ R.map Span.start → s'.size a = s.size a
  covers : ∀ x, Covers R' x ↔ Covers R x ∨ b.Has x
  length : R'.length ≤ R.length + 1

/-- **`free` comes to an end and puts a block in its place.** -/
theorem FreeList.free (h : FreeList s R) (hsize : 8 * s.size b.start = b.len)
    (hbase : s.base < b.start) (hb : 0 < b.len) (hout : ∀ x, b.Has x → ¬ Covers R x)
    (hlen : R.length ≤ s.top + 1) :
    ∃ s' R', free s (b.start + 8) = some s' ∧ Freed s s' R b R' := by
  -- no block of the list starts in the new one, and the new one in none
  have hne : ∀ c ∈ R.tail, c.stop ≤ b.start ∨ b.stop ≤ c.start := by
    intro c hc
    have hcpos := h.pos c hc
    have hcR := List.mem_of_mem_tail hc
    by_contra hover
    simp only [Span.stop] at hover
    refine hout (max b.start c.start) ?_ ⟨c, hcR, ?_⟩
    · simp only [Span.Has, Span.stop]
      omega
    · simp only [Span.Has, Span.stop]
      omega
  have hapart : ∀ c ∈ R, c.stop ≤ b.start ∨ b.stop ≤ c.start := by
    intro c hc
    obtain ⟨d, l, rfl⟩ := List.exists_cons_of_ne_nil (List.ne_nil_of_mem hc)
    have hhead := h.head
    obtain rfl : d = ⟨s.base, 0⟩ := by simpa using hhead
    rcases List.mem_cons.mp hc with rfl | hc
    · exact .inl (Nat.le_of_lt hbase)
    · exact hne c hc
  have hstart : ∀ c ∈ R, c.start ≠ b.start := by
    intro c hc heq
    obtain ⟨d, l, rfl⟩ := List.exists_cons_of_ne_nil (List.ne_nil_of_mem hc)
    have hhead := h.head
    obtain rfl : d = ⟨s.base, 0⟩ := by simpa using hhead
    rcases List.mem_cons.mp hc with rfl | hc
    · exact Nat.ne_of_lt hbase heq
    · have hcpos := h.pos c hc
      rcases hne c hc with hle | hle <;> simp only [Span.stop] at hle <;> omega
  obtain ⟨front, q, back, rfl, hlt, -, hback⟩ :=
    h.gaps.split ⟨_, h.head, hbase⟩ hstart
  have hwalk := h.walk_eq hbase hlt hback hlen
  have hj := h.joinNext hsize hbase
  have hqstop : q.stop ≤ b.start := by
    rcases hapart q (by simp) with hle | hle
    · exact hle
    · simp only [Span.stop] at hle
      omega
  have hbackstop : ∀ c ∈ back, b.stop ≤ c.start := by
    intro c hc
    have hlt := hback c hc
    rcases hapart c (by simp [hc]) with hle | hle
    · simp only [Span.stop] at hle
      omega
    · exact hle
  have hlist := h.joinPrev hj hbase hb hlt hqstop hbackstop
  refine ⟨_, _, ?_, hlist, ?_, ?_, fun x => ?_, ?_⟩
  · rw [Umalloc.free, Nat.add_sub_cancel, hwalk]
    rfl
  · simpa only [joinPrev_frame] using hj.frame
  · intro a ha hmem
    rw [joinPrev_size _ _ (by rintro rfl; exact hmem (by simp)), hj.sizes a ha]
  · simp only [covers_append, covers_coalesce, covers_cons]
    tauto
  · have hb := length_coalesce_le b back
    have hq := length_coalesce_le q (coalesce b back)
    simp only [List.length_append, List.length_cons]
    omega

/-! ## What `malloc` does with the list -/

section Search

variable {nunits k a p prevp : ℕ} {gap : Option ℕ} {nodes : List ℕ}

/-- Blocks that are too small are passed. -/
theorem search_path (h : Trail s.ptr p nodes a) (hsmall : ∀ d ∈ nodes, s.size d < nunits)
    (hfreep : s.freep ∉ nodes) (prevp : ℕ) :
    search nunits gap (nodes.length + k) s prevp p =
      search nunits gap k s ((prevp :: nodes).getLast (by simp)) a := by
  induction nodes generalizing prevp p with
  | nil =>
    obtain rfl : p = a := h
    simp
  | cons d nodes ih =>
    obtain ⟨rfl, hrest⟩ := h
    have hp := hsmall p List.mem_cons_self
    have hne : p ≠ s.freep := by
      rintro rfl
      exact hfreep List.mem_cons_self
    rw [List.length_cons, Nat.add_right_comm, search, if_neg (by omega), if_neg hne,
      ih hrest (fun e he => hsmall e (List.mem_cons_of_mem p he))
        (fun hmem => hfreep (List.mem_cons_of_mem p hmem))]
    rfl

/-- The last block that is passed points to the next one. -/
theorem next_getLast (h : Trail s.ptr (s.ptr prevp) nodes a) :
    s.ptr ((prevp :: nodes).getLast (by simp)) = a := by
  induction nodes generalizing prevp with
  | nil => exact h
  | cons d nodes ih =>
    obtain ⟨rfl, hrest⟩ := h
    rw [List.getLast_cons (by simp)]
    exact ih hrest

/-- The list from the block behind `freep` on, around to `freep`. -/
theorem FreeList.around (h : FreeList s R) : ∃ nodes, Trail s.ptr (s.ptr s.freep) nodes s.freep ∧
    s.freep ∉ nodes ∧ nodes.length < R.length ∧
    ∀ d, d ∈ R.map Span.start ↔ d = s.freep ∨ d ∈ nodes := by
  obtain ⟨q, hq, hfreep⟩ := List.mem_map.mp h.freep
  obtain ⟨front, back, rfl⟩ := List.append_of_mem hq
  have hpath := h.path_back
  obtain ⟨hfront, hback⟩ := Gapped.around h.gaps
  rw [← hfreep]
  refine ⟨_, hpath, fun hmem => ?_, by simp; omega, fun d => by simp [or_comm, or_left_comm]⟩
  obtain ⟨c, hc, heq⟩ := List.mem_map.mp hmem
  rcases List.mem_append.mp hc with hc | hc
  · have := hback c hc
    simp only [Span.stop] at this
    omega
  · have := hfront c hc
    simp only [Span.stop] at this
    omega

/-- **The loop of `malloc` finds a block** that is large enough, when there is one. -/
theorem FreeList.search_found (h : FreeList s R) (hc : ∃ c ∈ R, nunits ≤ s.size c.start)
    (hk : R.length ≤ k) (gap : Option ℕ) : ∃ prevp p,
      search nunits gap k s s.freep (s.ptr s.freep) = some (take s nunits prevp p) ∧
        nunits ≤ s.size p ∧ prevp ∈ R.map Span.start ∧ s.ptr prevp = p ∧
        p ∈ R.map Span.start := by
  obtain ⟨nodes, hpath, hnot, hlen, hmem⟩ := h.around
  obtain ⟨c, hcR, hcsize⟩ := hc
  have hcmem : c.start ∈ nodes ++ [s.freep] := by
    simpa [or_comm] using (hmem c.start).mp (List.mem_map_of_mem hcR)
  -- the first large block, with the small ones before it
  obtain ⟨a, hfind⟩ := Option.isSome_iff_exists.mp
    (List.find?_isSome (p := fun d => nunits ≤ s.size d) |>.mpr ⟨c.start, hcmem, by simpa⟩)
  obtain ⟨ha, small, rest, hsplit, hsmall⟩ := List.find?_eq_some_iff_append.mp hfind
  simp only [decide_eq_true_eq, Bool.not_eq_eq_eq_not, Bool.not_true, decide_eq_false_iff_not,
    Nat.not_le] at ha hsmall
  -- the large one is `freep` itself only when all others are small
  have hpre : Trail s.ptr (s.ptr s.freep) small a ∧ s.freep ∉ small ∧ small.length ≤ nodes.length ∧
      (∀ d ∈ small, d ∈ R.map Span.start) ∧ a ∈ R.map Span.start := by
    rcases List.eq_nil_or_concat rest with rfl | ⟨rest, e, rfl⟩
    · obtain ⟨rfl, hlast⟩ := List.append_inj' hsplit rfl
      obtain rfl : s.freep = a := by simpa using hlast
      exact ⟨hpath, hnot, Nat.le_refl _, fun d hd => (hmem d).mpr (.inr hd), h.freep⟩
    · have hnodes : nodes = small ++ a :: rest := by
        have hsplit' : nodes ++ [s.freep] = (small ++ a :: rest) ++ [e] := by simpa using hsplit
        exact (List.append_inj' hsplit' rfl).1
      subst hnodes
      obtain ⟨m, hsmallpath, hm, -⟩ := trail_append.mp hpath
      obtain rfl : a = m := hm.symm
      refine ⟨hsmallpath, fun hin => hnot (by simp [hin]), by simp, fun d hd => ?_, ?_⟩
      · exact (hmem d).mpr (.inr (by simp [hd]))
      · exact (hmem a).mpr (.inr (by simp))
  obtain ⟨hprepath, hprenot, hprelen, hpremem, hamem⟩ := hpre
  obtain ⟨k, rfl⟩ := Nat.exists_eq_add_of_le (show small.length + 1 ≤ k by omega)
  refine ⟨(s.freep :: small).getLast (by simp), a, ?_, ha, ?_, next_getLast hprepath, hamem⟩
  · rw [Nat.add_assoc, search_path hprepath hsmall hprenot, Nat.add_comm 1 k, search, if_pos ha]
  · rcases List.mem_cons.mp (List.getLast_mem (show s.freep :: small ≠ [] by simp)) with hl | hl
    · rw [hl]
      exact h.freep
    · exact hpremem _ hl

/-- The loop comes back to `freep` when all blocks are too small. -/
theorem FreeList.search_around (h : FreeList s R) (hsmall : ∀ c ∈ R, s.size c.start < nunits)
    (hk : R.length ≤ k) (gap : Option ℕ) : ∃ n, k ≤ n + R.length ∧
      (morecore s nunits gap = some none →
        search nunits gap k s s.freep (s.ptr s.freep) = some (s, 0)) ∧
      ∀ s', morecore s nunits gap = some (some s') →
        search nunits gap k s s.freep (s.ptr s.freep) =
          search nunits gap n s' s'.freep (s'.ptr s'.freep) := by
  obtain ⟨nodes, hpath, hnot, hlen, hmem⟩ := h.around
  have hsize : ∀ d ∈ R.map Span.start, s.size d < nunits := by
    intro d hd
    obtain ⟨c, hc, rfl⟩ := List.mem_map.mp hd
    exact hsmall c hc
  obtain ⟨n, rfl⟩ := Nat.exists_eq_add_of_le (show nodes.length + 1 ≤ k by omega)
  have hfreep := hsize s.freep h.freep
  rw [Nat.add_assoc, search_path hpath (fun d hd => hsize d ((hmem d).mpr (.inr hd))) hnot,
    Nat.add_comm 1 n, search, if_neg (by omega), if_pos rfl]
  refine ⟨n, by omega, fun hcore => ?_, fun s' hcore => ?_⟩
  · rw [hcore]
  · rw [hcore]

/-- Block `b` is taken out of the list, and all else is as it was. -/
structure Taken (s s' : State) (R : List Span) (b : Span) (R' : List Span) : Prop where
  list : FreeList s' R'
  frame : s'.base = s.base ∧ s'.top = s.top ∧ s'.live = s.live ∧ s'.regions = s.regions
  size : 8 * s'.size b.start = b.len
  sizes : ∀ a, a ≠ b.start → a ∉ R.map Span.start → s'.size a = s.size a
  covers : ∀ x, Covers R x ↔ Covers R' x ∨ b.Has x
  apart : ∀ x, b.Has x → ¬ Covers R' x

/-- The two blocks at the place where `malloc` takes one. -/
theorem FreeList.pair (h : FreeList s R) (hprev : prevp ∈ R.map Span.start)
    (hp : s.ptr prevp ≠ s.base) : ∃ l e c r, R = l ++ e :: c :: r ∧ e.start = prevp ∧
      c.start = s.ptr prevp := by
  obtain ⟨e, he, rfl⟩ := List.mem_map.mp hprev
  obtain ⟨l, r, rfl⟩ := List.append_of_mem he
  have hptr := h.ptr_eq
  cases r with
  | nil => exact absurd hptr hp
  | cons c r => exact ⟨l, e, c, r, rfl, rfl, hptr.symm⟩

theorem FreeList.size_base (h : FreeList s R) : s.size s.base = 0 := by
  have hsize : 8 * s.size s.base = 0 := h.sizes _ (List.mem_of_mem_head? (by rw [h.head]; rfl))
  omega

/-- The whole block is taken. -/
theorem FreeList.take_whole (h : FreeList s (l ++ q :: c :: r)) :
    Taken s { s with ptr := update s.ptr q.start (s.ptr c.start), freep := q.start }
      (l ++ q :: c :: r) c (l ++ q :: r) := by
  have hassoc : l ++ q :: c :: r = (l ++ [q]) ++ c :: r := by simp
  have hgaps := h.gaps
  rw [hassoc] at hgaps
  have hpath : Trail s.ptr (s.ptr c.start) ((r ++ l).map Span.start) q.start := by
    have hback := h.path_back
    rw [h.ptr_eq] at hback
    exact hback.2
  obtain ⟨hl, hr⟩ := Gapped.around h.gaps
  have hq : q.start ∉ (r ++ l).map Span.start := by
    intro hmem
    obtain ⟨d, hd, heq⟩ := List.mem_map.mp hmem
    rcases List.mem_append.mp hd with hd | hd
    · have := hr d (List.mem_cons_of_mem c hd)
      simp only [Span.stop] at this
      omega
    · have := hl d hd
      simp only [Span.stop] at this
      omega
  constructor
  · refine ⟨?_, by simpa using hgaps.remove, fun d hd => h.pos d ?_, ?_, fun d hd => h.sizes d ?_,
      by simp⟩
    · have hhead := h.head
      cases l <;> simpa using hhead
    · cases l with
      | nil => exact List.mem_cons_of_mem c hd
      | cons e l =>
        simp only [List.cons_append, List.tail_cons, List.mem_append, List.mem_cons] at hd ⊢
        tauto
    · have hcycle := hpath.close hq
      rw [List.map_append, ← List.cons_append] at hcycle
      simpa using hcycle.rotate
    · simp only [List.mem_append, List.mem_cons] at hd ⊢
      tauto
  · exact ⟨rfl, rfl, rfl, rfl⟩
  · exact h.sizes c (by simp)
  · intro a _ _
    rfl
  · intro x
    simp only [covers_append, covers_cons]
    tauto
  · intro x hx
    simpa using hgaps.not_covers hx

/-- The tail of a block is taken. -/
theorem FreeList.take_tail (h : FreeList s (l ++ q :: c :: r)) (hn : 0 < nunits)
    (hlt : nunits < s.size c.start) :
    Taken s { s with
        size := update (update s.size c.start (s.size c.start - nunits))
          (c.start + 8 * (s.size c.start - nunits)) nunits
        freep := q.start } (l ++ q :: c :: r)
      ⟨c.start + 8 * (s.size c.start - nunits), 8 * nunits⟩
      (l ++ q :: ⟨c.start, 8 * (s.size c.start - nunits)⟩ :: r) := by
  have hassoc : ∀ d, l ++ q :: d :: r = (l ++ [q]) ++ d :: r := by simp
  have hgaps := h.gaps
  rw [hassoc] at hgaps
  have hc := h.sizes c (by simp)
  -- no other block starts inside of `c`
  have hother : ∀ d ∈ (l ++ [q]) ++ r, d.start ≠ c.start ∧
      d.start ≠ c.start + 8 * (s.size c.start - nunits) := by
    intro d hd
    have hdc : d.stop < c.start ∨ c.stop < d.start := by
      obtain ⟨-, hcr, hlc⟩ := List.pairwise_append.mp hgaps
      rcases List.mem_append.mp hd with hd | hd
      · exact .inl (hlc d hd c List.mem_cons_self)
      · exact .inr ((List.pairwise_cons.mp hcr).1 d hd)
    simp only [Span.stop] at hdc
    omega
  constructor
  · refine ⟨?_, ?_, fun d hd => ?_, ?_, fun d hd => ?_, by simp⟩
    · have hhead := h.head
      cases l <;> simpa using hhead
    · rw [hassoc]
      exact hgaps.shrink (by omega)
    · by_cases hnew : d = ⟨c.start, 8 * (s.size c.start - nunits)⟩
      · subst hnew
        show 0 < 8 * (s.size c.start - nunits)
        omega
      · refine h.pos d ?_
        cases l with
        | nil =>
          simp only [List.nil_append, List.tail_cons, List.mem_cons] at hd ⊢
          tauto
        | cons e l =>
          simp only [List.cons_append, List.tail_cons, List.mem_append, List.mem_cons] at hd ⊢
          tauto
    · simpa using h.ring
    · rw [hassoc] at hd
      by_cases hnew : d = ⟨c.start, 8 * (s.size c.start - nunits)⟩
      · subst hnew
        simp only
        rw [update_of_ne (by omega), update_self]
      · have hd' : d ∈ (l ++ [q]) ++ r := by
          simp only [List.mem_append, List.mem_cons] at hd ⊢
          tauto
        obtain ⟨h1, h2⟩ := hother d hd'
        simp only [update_of_ne h2, update_of_ne h1]
        refine h.sizes d ?_
        simp only [List.mem_append, List.mem_cons] at hd' ⊢
        tauto
  · exact ⟨rfl, rfl, rfl, rfl⟩
  · simp
  · intro a ha hmem
    have hac : a ≠ c.start := by
      rintro rfl
      exact hmem (by simp)
    simp only at ha
    simp only [update_of_ne ha, update_of_ne hac]
  · intro x
    have hsplit : c.Has x ↔ Span.Has ⟨c.start, 8 * (s.size c.start - nunits)⟩ x ∨
        Span.Has ⟨c.start + 8 * (s.size c.start - nunits), 8 * nunits⟩ x := by
      simp only [Span.Has, Span.stop]
      omega
    simp only [covers_append, covers_cons, hsplit]
    tauto
  · intro x hx hcov
    have hcx : c.Has x := by
      simp only [Span.Has, Span.stop] at hx ⊢
      omega
    have hnot := hgaps.not_covers hcx
    have hnew : ¬ Span.Has ⟨c.start, 8 * (s.size c.start - nunits)⟩ x := by
      simp only [Span.Has, Span.stop] at hx ⊢
      omega
    simp only [covers_append, covers_cons] at hnot hcov
    tauto

/-- **`malloc` takes a block of the size it needs** out of a block that is large enough. -/
theorem FreeList.take (h : FreeList s R) (hn : 0 < nunits) (hprev : prevp ∈ R.map Span.start)
    (hle : nunits ≤ s.size (s.ptr prevp)) : ∃ a R',
      (take s nunits prevp (s.ptr prevp)).2 = a + 8 ∧
        Taken s (take s nunits prevp (s.ptr prevp)).1 R ⟨a, 8 * nunits⟩ R' := by
  have hbase : s.ptr prevp ≠ s.base := by
    intro heq
    rw [heq, h.size_base] at hle
    omega
  obtain ⟨l, q, c, r, rfl, rfl, hc⟩ := h.pair hprev hbase
  rw [← hc] at hle ⊢
  unfold Umalloc.take
  split
  · rename_i heq
    have hlen := h.sizes c (by simp)
    have hspan : (⟨c.start, 8 * nunits⟩ : Span) = c := by rw [← heq, hlen]
    refine ⟨c.start, l ++ q :: r, rfl, ?_⟩
    rw [hspan]
    exact h.take_whole
  · rename_i hne
    have htail := h.take_tail hn (Nat.lt_of_le_of_ne hle (Ne.symm hne))
    simp only [update_self]
    exact ⟨_, _, rfl, htail⟩

end Search

end Xv6.Umalloc
