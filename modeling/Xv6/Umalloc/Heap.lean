import Xv6.Umalloc.FreeList

/-!
# The heap of a program

The blocks of the free list and the blocks that are allocated make up the memory that `sbrk` has
given.

## Main definitions

* `Heap s R loose` — the free list, the allocated blocks and the memory fit together.

## Main results

* `Heap.malloc`, `Heap.free`, `Heap.store` — what one step preserves.
* `heap_ok` — what holds after every run.
-/

namespace Xv6.Umalloc

open Function LinkedCycle Spans Machine

variable {s s' : State} {R R' loose : List Span} {b c : Block} {n x nunits k : ℕ} {gap : Option ℕ}

/-- Two blocks have no address in common. -/
def Block.Apart (b c : Block) : Prop := ∀ x, b.span.Has x → ¬ c.span.Has x

instance : Std.Symm Block.Apart := ⟨fun _ _ h x hc hb => h x hb hc⟩

/-- The heap after the first call.  `loose` is the memory that is neither on the list nor in an
allocated block, while a function runs. -/
structure Heap (s : State) (R loose : List Span) : Prop where
  list : FreeList s R
  sizes : ∀ b ∈ s.live, s.size b.addr = b.units
  room : ∀ b ∈ s.live, b.nbytes + 8 ≤ 8 * b.units
  apart : s.live.Pairwise Block.Apart
  free_apart : ∀ b ∈ s.live, ∀ x, b.span.Has x → ¬ Covers R x
  loose_apart : ∀ x, Covers loose x → ¬ Covers R x ∧ ∀ b ∈ s.live, ¬ b.span.Has x
  cover : ∀ x,
    Covers s.regions x ↔ Covers R x ∨ Covers (s.live.map Block.span) x ∨ Covers loose x
  bounds : ∀ x, Covers s.regions x → s.base < x ∧ x < s.top
  base_pos : 0 < s.base
  base_lt : s.base < s.top

theorem covers_map {l : List Block} : Covers (l.map Block.span) x ↔ ∃ b ∈ l, b.span.Has x := by
  simp [Covers]

theorem covers_single {b : Span} : Covers [b] x ↔ b.Has x := by simp [Covers]

namespace Heap

/-! ## Where the blocks are -/

section

variable (h : Heap s R loose)
include h

theorem start_lt {c : Span} (hc : c ∈ R) : c.start < s.top := by
  by_cases hpos : 0 < c.len
  · have hcov : Covers R c.start := ⟨c, hc, Nat.le_refl _, by simp only [Span.stop]; omega⟩
    exact (h.bounds _ ((h.cover _).mpr (.inl hcov))).2
  · -- only `base` has no unit
    rcases h.list.mem_cases hc with rfl | hc
    · exact h.base_lt
    · exact absurd (h.list.pos c hc) hpos

theorem length_le : R.length ≤ s.top + 1 := by
  have := h.list.gaps.length_le (x := 0) (y := s.top)
    (fun c hc => ⟨Nat.zero_le _, Nat.le_of_lt (h.start_lt hc)⟩) (by omega)
  omega

/-- An address that is not free starts no free block. -/
theorem not_start (hx : ¬ Covers R x) (hbase : s.base < x) :
    x ∉ R.map Span.start := by
  intro hmem
  obtain ⟨c, hc, rfl⟩ := List.mem_map.mp hmem
  rcases h.list.mem_cases hc with rfl | htail
  · exact Nat.lt_irrefl _ hbase
  · refine hx ⟨c, hc, Nat.le_refl _, ?_⟩
    have := h.list.pos c htail
    simp only [Span.stop]
    omega

theorem has_addr (hb : b ∈ s.live) : b.span.Has b.addr := by
  have := h.room b hb
  refine ⟨Nat.le_refl _, ?_⟩
  simp only [Span.stop, Block.span]
  omega

theorem live_bounds (hb : b ∈ s.live) (hx : b.span.Has x) :
    s.base < x ∧ x < s.top :=
  h.bounds x ((h.cover x).mpr (.inr (.inl (covers_map.mpr ⟨b, hb, hx⟩))))

theorem live_not_start (hb : b ∈ s.live) (hx : b.span.Has x) :
    x ∉ R.map Span.start :=
  h.not_start (h.free_apart b hb x hx) (h.live_bounds hb hx).1

theorem loose_bounds (hx : Covers loose x) : s.base < x ∧ x < s.top :=
  h.bounds x ((h.cover x).mpr (.inr (.inr hx)))

/-- Two allocated blocks that share an address are one. -/
theorem eq_of_has (hb : b ∈ s.live) (hc : c ∈ s.live) (hbx : b.span.Has x) (hcx : c.span.Has x) :
    b = c := by
  by_contra hne
  exact h.apart.forall hb hc hne x hbx hcx

end

/-! ## Memory that moves -/

/-- A block is given back: it is loose. -/
theorem drop (h : Heap s R []) (hb : b ∈ s.live) :
    Heap { s with live := s.live.filter fun c => !(c.addr + 8 == b.addr + 8) } R [b.span] := by
  have hmem : ∀ c, c ∈ s.live.filter (fun c => !(c.addr + 8 == b.addr + 8)) ↔
      c ∈ s.live ∧ c.addr ≠ b.addr := by simp
  have hother : ∀ c ∈ s.live, c.addr ≠ b.addr → ∀ x, b.span.Has x → ¬ c.span.Has x := by
    intro c hc hne x hbx hcx
    exact hne (congrArg Block.addr (h.eq_of_has hc hb hcx hbx))
  constructor
  · exact h.list.congr rfl rfl (fun _ _ => rfl) fun _ _ => rfl
  · intro c hc
    exact h.sizes c ((hmem c).mp hc).1
  · intro c hc
    exact h.room c ((hmem c).mp hc).1
  · exact h.apart.filter _
  · intro c hc
    exact h.free_apart c ((hmem c).mp hc).1
  · intro x hx
    have hbx := covers_single.mp hx
    refine ⟨h.free_apart b hb x hbx, fun c hc => ?_⟩
    obtain ⟨hlive, hne⟩ := (hmem c).mp hc
    exact hother c hlive hne x hbx
  · intro x
    rw [h.cover x]
    refine or_congr_right ?_
    simp only [covers_map, covers_single, not_covers_nil, or_false]
    constructor
    · rintro ⟨c, hc, hx⟩
      · by_cases heq : c.addr = b.addr
        · obtain rfl : c = b := h.eq_of_has hc hb (h.has_addr hc) (heq ▸ h.has_addr hb)
          exact .inr hx
        · exact .inl ⟨c, (hmem c).mpr ⟨hc, heq⟩, hx⟩
    · rintro (⟨c, hc, hx⟩ | hx)
      · exact ⟨c, ((hmem c).mp hc).1, hx⟩
      · exact ⟨b, hb, hx⟩
  · exact h.bounds
  · exact h.base_pos
  · exact h.base_lt

/-- `sbrk` gives memory: it is loose. -/
theorem grow (h : Heap s R []) {hp : ℕ} (hhp : s.top ≤ hp) (nu : ℕ) :
    Heap { s with
      size := update s.size hp nu
      top := hp + 8 * nu
      regions := ⟨hp, 8 * nu⟩ :: s.regions } R [⟨hp, 8 * nu⟩] := by
  have hnew : ∀ {x}, Covers [⟨hp, 8 * nu⟩] x ↔ hp ≤ x ∧ x < hp + 8 * nu := by
    intro x
    simp [Covers, Span.Has, Span.stop]
  have hbase := h.base_lt
  constructor
  · refine h.list.congr rfl rfl (fun _ _ => rfl) fun a ha => update_of_ne ?_ _ _
    obtain ⟨c, hc, rfl⟩ := List.mem_map.mp ha
    have := h.start_lt hc
    omega
  · intro b hb
    have := (h.live_bounds hb (h.has_addr hb)).2
    simp only
    rw [update_of_ne (by omega)]
    exact h.sizes b hb
  · exact h.room
  · exact h.apart
  · exact h.free_apart
  · intro x hx
    have hx := hnew.mp hx
    refine ⟨fun hcov => ?_, fun b hb hbx => ?_⟩
    · have := (h.bounds x ((h.cover x).mpr (.inl hcov))).2
      omega
    · have := (h.live_bounds hb hbx).2
      omega
  · intro x
    simp only [covers_cons, h.cover x, not_covers_nil, or_false]
    tauto
  · intro x hx
    rcases covers_cons.mp hx with hx | hx
    · simp only [Span.Has, Span.stop] at hx ⊢
      omega
    · have := h.bounds x hx
      simp only
      omega
  · exact h.base_pos
  · simp only
    omega

/-- Loose memory is put on the list. -/
theorem put {b : Span} (h : Heap s R [b]) (hb : 0 < b.len) (hf : Freed s s' R b R') :
    Heap s' R' [] := by
  obtain ⟨hbase, htop, hlive, hregions⟩ := hf.frame
  have hnot : ∀ c ∈ s.live, ∀ x, c.span.Has x → ¬ b.Has x := by
    intro c hc x hcx hbx
    exact (h.loose_apart x (covers_single.mpr hbx)).2 c hc hcx
  constructor
  · exact hf.list
  · intro c hc
    rw [hlive] at hc
    have haddr := h.has_addr hc
    have hne : c.addr ≠ b.start := by
      intro heq
      refine hnot c hc _ haddr ?_
      rw [heq]
      exact ⟨Nat.le_refl _, by simp only [Span.stop]; omega⟩
    rw [hf.sizes _ hne (h.live_not_start hc haddr)]
    exact h.sizes c hc
  · rw [hlive]
    exact h.room
  · rw [hlive]
    exact h.apart
  · intro c hc x hx
    rw [hlive] at hc
    rw [hf.covers]
    rintro (hR | hbx)
    · exact h.free_apart c hc x hx hR
    · exact hnot c hc x hx hbx
  · intro x hx
    exact absurd hx not_covers_nil
  · intro x
    simp only [hregions, hlive, h.cover x, hf.covers x, covers_single, not_covers_nil, or_false]
    tauto
  · intro x hx
    rw [hbase, htop]
    exact h.bounds x (hregions ▸ hx)
  · rw [hbase]
    exact h.base_pos
  · rw [hbase, htop]
    exact h.base_lt

/-- A block is taken from the list: it is loose. -/
theorem get {b : Span} (h : Heap s R []) (hb : 0 < b.len) (ht : Taken s s' R b R') :
    Heap s' R' [b] := by
  obtain ⟨hbase, htop, hlive, hregions⟩ := ht.frame
  constructor
  · exact ht.list
  · intro c hc
    rw [hlive] at hc
    have haddr := h.has_addr hc
    have hne : c.addr ≠ b.start := by
      intro heq
      refine h.free_apart c hc _ haddr ((ht.covers _).mpr (.inr ?_))
      rw [heq]
      exact ⟨Nat.le_refl _, by simp only [Span.stop]; omega⟩
    rw [ht.sizes _ hne (h.live_not_start hc haddr)]
    exact h.sizes c hc
  · rw [hlive]
    exact h.room
  · rw [hlive]
    exact h.apart
  · intro c hc x hx hR
    rw [hlive] at hc
    exact h.free_apart c hc x hx ((ht.covers x).mpr (.inl hR))
  · intro x hx
    have hx := covers_single.mp hx
    refine ⟨ht.apart x hx, fun c hc hcx => ?_⟩
    rw [hlive] at hc
    exact h.free_apart c hc x hcx ((ht.covers x).mpr (.inr hx))
  · intro x
    simp only [hregions, hlive, h.cover x, ht.covers x, covers_single, not_covers_nil, or_false]
    tauto
  · intro x hx
    rw [hbase, htop]
    exact h.bounds x (hregions ▸ hx)
  · rw [hbase]
    exact h.base_pos
  · rw [hbase, htop]
    exact h.base_lt

/-- A loose block is handed out. -/
theorem hand (h : Heap s R [b.span]) (hsize : s.size b.addr = b.units)
    (hroom : b.nbytes + 8 ≤ 8 * b.units) : Heap { s with live := b :: s.live } R [] := by
  constructor
  · exact h.list.congr rfl rfl (fun _ _ => rfl) fun _ _ => rfl
  · intro c hc
    rcases List.mem_cons.mp hc with rfl | hc
    · exact hsize
    · exact h.sizes c hc
  · intro c hc
    rcases List.mem_cons.mp hc with rfl | hc
    · exact hroom
    · exact h.room c hc
  · refine List.pairwise_cons.mpr ⟨fun c hc x hx => ?_, h.apart⟩
    exact (h.loose_apart x (covers_single.mpr hx)).2 c hc
  · intro c hc x hx
    rcases List.mem_cons.mp hc with rfl | hc
    · exact (h.loose_apart x (covers_single.mpr hx)).1
    · exact h.free_apart c hc x hx
  · intro x hx
    exact absurd hx not_covers_nil
  · intro x
    simp only [h.cover x, List.map_cons, covers_cons, not_covers_nil, or_false]
    tauto
  · exact h.bounds
  · exact h.base_pos
  · exact h.base_lt

/-! ## The functions -/

/-- Loose memory can be given to `free`. -/
theorem free_loose {b : Span} (h : Heap s R [b]) (hb : 0 < b.len)
    (hsize : 8 * s.size b.start = b.len) :
    ∃ s' R', Umalloc.free s (b.start + 8) = some s' ∧ Heap s' R' [] ∧ Freed s s' R b R' := by
  have hbase : s.base < b.start := by
    refine (h.loose_bounds (covers_single.mpr ⟨Nat.le_refl _, ?_⟩)).1
    simp only [Span.stop]
    omega
  obtain ⟨s', R', hfree, hf⟩ := h.list.free hsize hbase hb
    (fun x hx => (h.loose_apart x (covers_single.mpr hx)).1) h.length_le
  exact ⟨s', R', hfree, h.put hb hf, hf⟩

/-- `free` of an allocated block. -/
theorem free (h : Heap s R []) (hb : b ∈ s.live) : ∃ s' R',
    Umalloc.free { s with live := s.live.filter fun c => !(c.addr + 8 == b.addr + 8) }
      (b.addr + 8) = some s' ∧ Heap s' R' [] := by
  have hroom := h.room b hb
  have hsize : 8 * s.size b.addr = 8 * b.units := by rw [h.sizes b hb]
  have hpos : 0 < b.span.len := by
    simp only [Block.span]
    omega
  obtain ⟨s', R', hfree, hheap, -⟩ := (h.drop hb).free_loose hpos hsize
  exact ⟨s', R', hfree, hheap⟩

/-- **After `morecore` there is a block that is large enough.** -/
theorem morecore (h : Heap s R []) (hn : 0 < nunits) (g : ℕ) : ∃ s' R',
    Umalloc.morecore s nunits (some g) = some (some s') ∧ Heap s' R' [] ∧ s'.live = s.live ∧
      R'.length ≤ R.length + 1 ∧ ∃ c ∈ R', nunits ≤ s'.size c.start := by
  obtain ⟨nu, hnu, hcore⟩ : ∃ nu, nunits ≤ nu ∧ Umalloc.morecore s nunits (some g) =
      (Umalloc.free { s with
        size := update s.size (s.top + g) nu
        top := s.top + g + 8 * nu
        regions := ⟨s.top + g, 8 * nu⟩ :: s.regions } (s.top + g + 8)).map some :=
    ⟨if nunits < 4096 then 4096 else nunits, by split <;> omega, rfl⟩
  obtain ⟨s', R', hfree, hheap, hf⟩ :=
    (h.grow (Nat.le_add_right s.top g) nu).free_loose (by show 0 < 8 * nu; omega) (by simp)
  rw [hcore, hfree]
  refine ⟨s', R', rfl, hheap, hf.frame.2.2.1, hf.length, ?_⟩
  -- the new memory is free, so it is in one block
  obtain ⟨c, hc, hstart, hstop⟩ := hf.list.gaps.single
    (x := s.top + g) (y := s.top + g + 8 * nu - 1) (by omega) (fun z h1 h2 => by
      refine (hf.covers z).mpr (.inr ⟨h1, ?_⟩)
      simp only [Span.stop]
      omega)
  refine ⟨c, hc, ?_⟩
  have hsize := hf.list.sizes c hc
  simp only [Span.stop] at hstop
  omega

/-- `malloc` on a list that has a block that is large enough. -/
theorem search_found (h : Heap s R []) (hn : 0 < nunits) (hc : ∃ c ∈ R, nunits ≤ s.size c.start)
    (hk : R.length ≤ k) : ∃ s' a R',
      search nunits gap k s s.freep (s.ptr s.freep) = some (s', a + 8) ∧
        Heap s' R' [⟨a, 8 * nunits⟩] ∧ s'.live = s.live ∧ s'.size a = nunits := by
  obtain ⟨prevp, p, hsearch, hle, hprev, rfl, -⟩ := h.list.search_found hc hk gap
  obtain ⟨a, R', hptr, ht⟩ := h.list.take hn hprev hle
  refine ⟨_, a, R', ?_, h.get (by show 0 < 8 * nunits; omega) ht, ht.frame.2.2.1, ?_⟩
  · rw [hsearch, ← hptr]
  · have := ht.size
    simp only at this
    omega

/-- The loop of `malloc` comes to an end: there is no memory, or there is a block. -/
theorem search (h : Heap s R []) (hn : 0 < nunits) (hk : R.length + R.length + 1 ≤ k)
    (gap : Option ℕ) :
    search nunits gap k s s.freep (s.ptr s.freep) = some (s, 0) ∨ ∃ s' a R',
      search nunits gap k s s.freep (s.ptr s.freep) = some (s', a + 8) ∧
        Heap s' R' [⟨a, 8 * nunits⟩] ∧ s'.live = s.live ∧ s'.size a = nunits := by
  by_cases hlarge : ∃ c ∈ R, nunits ≤ s.size c.start
  · exact .inr (h.search_found hn hlarge (by omega))
  · have hsmall : ∀ c ∈ R, s.size c.start < nunits := fun c hc =>
      Nat.lt_of_not_le fun hle => hlarge ⟨c, hc, hle⟩
    obtain ⟨n, hlen, hnone, hsome⟩ := h.list.search_around hsmall (k := k) (by omega) gap
    cases gap with
    | none => exact .inl (hnone rfl)
    | some g =>
      obtain ⟨s₁, R₁, hcore, hheap, hlive, hR₁, hlarge₁⟩ := h.morecore hn g
      rw [hsome s₁ hcore, ← hlive]
      exact .inr (hheap.search_found hn hlarge₁ (by omega))

/-- The program stores into a block. -/
theorem store (h : Heap s R []) {a : ℕ} (ha : s.live.any (Block.inside a) = true) (ptr size : ℕ) :
    Heap { s with
      ptr := update s.ptr a ptr
      size := update s.size a size } R [] := by
  obtain ⟨b, hb, hin⟩ := List.any_eq_true.mp ha
  simp only [Block.inside, Bool.and_eq_true, decide_eq_true_eq] at hin
  have hhas : b.span.Has a := by
    simp only [Span.Has, Span.stop, Block.span]
    omega
  have hstart := h.live_not_start hb hhas
  refine ⟨?_, fun c hc => ?_, h.room, h.apart, h.free_apart, h.loose_apart, h.cover, h.bounds,
    h.base_pos, h.base_lt⟩
  · have hne : ∀ d ∈ R.map Span.start, d ≠ a := by
      rintro d hd rfl
      exact hstart hd
    exact h.list.congr rfl rfl (fun d hd => update_of_ne (hne d hd) _ _)
      fun d hd => update_of_ne (hne d hd) _ _
  · -- the header of a block is in no block but its own
    have hne : c.addr ≠ a := by
      intro heq
      obtain rfl : c = b := h.eq_of_has hc hb (h.has_addr hc) (heq ▸ hhas)
      omega
    simp only
    rw [update_of_ne hne]
    exact h.sizes c hc

/-- Memory that is in one piece is in one block once nothing is allocated. -/
theorem whole (h : Heap s R []) (hlive : s.live = []) {x y : ℕ} (hxy : x ≤ y)
    (hin : ∀ z, x ≤ z → z ≤ y → Covers s.regions z) : ∃ c ∈ R, c.Has x ∧ c.Has y := by
  have hfree : ∀ z, x ≤ z → z ≤ y → Covers R z := by
    intro z h1 h2
    have hz := (h.cover z).mp (hin z h1 h2)
    simpa [hlive, not_covers_nil] using hz
  obtain ⟨c, hc, hstart, hstop⟩ := h.list.gaps.single hxy hfree
  exact ⟨c, hc, ⟨hstart, by omega⟩, by omega, hstop⟩

end Heap

/-! ## Runs -/

/-- The heap before the first call, or after it. -/
inductive Inv (s : State) : Prop
  | unused (freep : s.freep = 0) (live : s.live = []) (regions : s.regions = [])
      (base : 0 < s.base ∧ s.base < s.top)
  | used (R : List Span) (heap : Heap s R [])

/-- After the set-up there is a list. -/
theorem Inv.setup (h : Inv s) : ∃ R, Heap (setup s) R [] ∧ (setup s).live = s.live := by
  cases h with
  | used R h =>
    have hfreep : s.freep ≠ 0 := by
      obtain ⟨c, hc, heq⟩ := List.mem_map.mp h.list.freep
      have := h.list.base_le hc
      have := h.base_pos
      omega
    refine ⟨R, ?_⟩
    rw [Umalloc.setup, if_neg hfreep]
    exact ⟨h, rfl⟩
  | unused freep live regions base =>
    refine ⟨[⟨s.base, 0⟩], ?_, by rw [Umalloc.setup, if_pos freep]⟩
    have hnot : ∀ x, ¬ Covers [⟨s.base, 0⟩] x := by
      intro x
      simp only [covers_single, Span.Has, Span.stop]
      omega
    rw [Umalloc.setup, if_pos freep]
    refine ⟨⟨rfl, by simp [Gapped], by simp, ⟨s.base, rfl, ?_⟩, by simp, by simp⟩, ?_, ?_, ?_, ?_,
      ?_, ?_, ?_, base.1, base.2⟩ <;> simp [live, regions, hnot, not_covers_nil, Trail]

/-- The sizes that `malloc` is meant for. -/
def Modest (n : ℕ) : Prop := ((n + 8 - 1) / 8 + 1) * 8 < 2147483648

theorem Modest.room (h : Modest n) : n + 8 ≤ 8 * units n := by
  simp only [Modest, units] at h ⊢
  rw [Nat.mod_eq_of_lt (by omega)]
  omega

/-- **`malloc` comes to an end.**  It returns null, or the address of a block. -/
theorem Inv.malloc (h : Inv s) (hn : Modest n) (gap : Option ℕ) :
    (∃ s' R, malloc s n gap = some (s', 0) ∧ Heap s' R []) ∨
      ∃ s' a R, malloc s n gap = some (s', a + 8) ∧ s'.live = s.live ∧
        Heap s' R [⟨a, 8 * units n⟩] ∧
        Heap { s' with live := ⟨a, units n, n⟩ :: s'.live } R [] := by
  obtain ⟨R, hheap, hlive⟩ := h.setup
  have hlen := hheap.length_le
  have hunits : 0 < units n := Nat.succ_pos _
  unfold Umalloc.malloc
  rcases hheap.search hunits (k := 3 * (Umalloc.setup s).top + 5) (by omega) gap with hs | hs
  · exact .inl ⟨_, R, hs, hheap⟩
  · obtain ⟨s', a, R', hs, hheap', hlive', hsize⟩ := hs
    refine .inr ⟨s', a, R', hs, hlive'.trans hlive, hheap', ?_⟩
    exact Heap.hand (b := ⟨a, units n, n⟩) hheap' hsize hn.room

/-- What a program may do. -/
def Action.Modest : Action → Prop
  | .malloc nbytes _ => Umalloc.Modest nbytes
  | _ => True

theorem Inv.step {a : Action} (h : Inv s) (ha : a.Modest) (hstep : step s a = some s') :
    Inv s' := by
  cases a with
  | malloc nbytes gap =>
    simp only [Umalloc.step] at hstep
    rcases h.malloc ha gap with ⟨s₁, R, hm, hheap⟩ | ⟨s₁, a, R, hm, -, -, hheap⟩
    · rw [hm, Option.map_some, if_pos rfl] at hstep
      cases hstep
      exact .used R hheap
    · rw [hm, Option.map_some, if_neg (by simp)] at hstep
      cases hstep
      exact .used R hheap
  | free ap =>
    simp only [Umalloc.step] at hstep
    split at hstep
    · rename_i hany
      obtain ⟨b, hb, hap⟩ := List.any_eq_true.mp hany
      obtain rfl : b.addr + 8 = ap := by simpa using hap
      cases h with
      | unused _ live _ _ =>
        rw [live] at hb
        cases hb
      | used R heap =>
        obtain ⟨s₁, R', hfree, hheap⟩ := heap.free hb
        rw [hfree] at hstep
        cases hstep
        exact .used R' hheap
    · cases hstep
  | store a ptr size =>
    simp only [Umalloc.step] at hstep
    split at hstep
    · rename_i hany
      cases hstep
      cases h with
      | unused _ live _ _ =>
        rw [live] at hany
        cases hany
      | used R heap => exact .used R (heap.store hany ptr size)
    · cases hstep

/-- **The heap of a program.**  A program calls `malloc` with sizes below 2 GB, gives back what
it has, and stores into its blocks.  Then there is a list of free blocks in the order of
addresses, from `base` on and with gaps between them, whose headers are a circle; with the
allocated blocks it makes up the memory that `sbrk` has given; no two blocks share an address,
and an allocated one has as many bytes as were asked for behind its header.  Once nothing is
allocated, memory in one piece is one block.  `free` and `malloc` come to an end, and what
`malloc` returns is apart from all blocks. -/
theorem heap_ok {base top : ℕ} {ptr size : ℕ → ℕ} {as : List Action} (hbase : 0 < base)
    (htop : base < top) (hmod : ∀ a ∈ as, a.Modest)
    (hrun : exec step (start base top ptr size) as = some s) :
    ((s.freep = 0 ∧ s.live = [] ∧ s.regions = []) ∨ ∃ R : List Span,
      R.head? = some ⟨s.base, 0⟩ ∧ Gapped R ∧ Loop s.ptr (R.map Span.start) ∧
      s.freep ∈ R.map Span.start ∧ (∀ c ∈ R, 8 * s.size c.start = c.len) ∧
      (∀ x, Covers s.regions x ↔ Covers R x ∨ Covers (s.live.map Block.span) x) ∧
      (∀ b ∈ s.live, ∀ x, b.span.Has x → ¬ Covers R x) ∧
      (s.live = [] → ∀ x y, x ≤ y → (∀ z, x ≤ z → z ≤ y → Covers s.regions z) →
        ∃ c ∈ R, c.Has x ∧ c.Has y)) ∧
    (s.live.Pairwise Block.Apart ∧ ∀ b ∈ s.live, b.nbytes + 8 ≤ 8 * b.units) ∧
    (∀ b ∈ s.live, ∃ s', step s (.free (b.addr + 8)) = some s') ∧
    ∀ n gap, Modest n → ∃ s' p, malloc s n gap = some (s', p) ∧ (p ≠ 0 →
      s'.live = s.live ∧ ∀ x, p ≤ x → x < p + n →
        Covers s'.regions x ∧ ∀ b ∈ s.live, ¬ b.span.Has x) := by
  have hall : Along step (fun _ a => a.Modest) (start base top ptr size) as := along_of_forall hmod
  have hinv : Inv s := exec_invariant (fun _ _ _ h ha hstep => h.step ha hstep)
    (.unused rfl rfl rfl ⟨hbase, htop⟩) hall hrun
  refine ⟨?_, ?_, ?_, fun n gap hn => ?_⟩
  · cases hinv with
    | unused freep live regions => exact .inl ⟨freep, live, regions⟩
    | used R h =>
      refine .inr ⟨R, h.list.head, h.list.gaps, h.list.ring, h.list.freep, h.list.sizes, ?_,
        h.free_apart, fun hlive x y hxy hin => h.whole hlive hxy hin⟩
      simpa [not_covers_nil] using h.cover
  · cases hinv with
    | unused _ live => simp [live]
    | used R h => exact ⟨h.apart, h.room⟩
  · intro b hb
    cases hinv with
    | unused _ live =>
      rw [live] at hb
      cases hb
    | used R h =>
      obtain ⟨s', R', hfree, -⟩ := h.free hb
      refine ⟨s', ?_⟩
      rw [step, if_pos (List.any_eq_true.mpr ⟨b, hb, by simp⟩)]
      exact hfree
  · rcases hinv.malloc hn gap with ⟨s', R, hm, -⟩ | ⟨s', a, R, hm, hlive, hheap, -⟩
    · exact ⟨s', 0, hm, fun hne => absurd rfl hne⟩
    · refine ⟨s', a + 8, hm, fun _ => ⟨hlive, fun x h1 h2 => ?_⟩⟩
      have hroom := hn.room
      have hx : Covers [⟨a, 8 * units n⟩] x := by
        simp only [covers_single, Span.Has, Span.stop]
        omega
      refine ⟨(hheap.cover x).mpr (.inr (.inr hx)), ?_⟩
      rw [← hlive]
      exact (hheap.loose_apart x hx).2

/-- Two blocks, one of them given back, and a store into the other. -/
theorem heap_ok_twoBlocks : ∃ s, exec step (start 8 16 (fun _ => 0) (fun _ => 0))
    [.malloc 100 (some 0), .malloc 50 none, .free 32680, .store 32620 1 2] = some s ∧
      s.live.Pairwise Block.Apart ∧ ∀ b ∈ s.live, b.nbytes + 8 ≤ 8 * b.units := by
  have hsome : (exec step (start 8 16 (fun _ => 0) (fun _ => 0))
      [.malloc 100 (some 0), .malloc 50 none, .free 32680, .store 32620 1 2]).isSome = true := by
    decide +kernel
  obtain ⟨s, hs⟩ := Option.isSome_iff_exists.mp hsome
  refine ⟨s, hs, (heap_ok (by decide) (by decide) ?_ hs).2.1⟩
  simp [Action.Modest, Modest]

end Xv6.Umalloc
