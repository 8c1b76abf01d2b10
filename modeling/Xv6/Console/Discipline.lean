import Xv6.Console.Model

/-!
# The line discipline of the console

Between `r` and `w` the buffer holds the characters that were committed and not yet taken, and
between `w` and `e` the line that is being edited.  The indices run modulo 2³² and `INPUT_BUF`
divides 2³², so nothing changes when they wrap around.

A call takes bytes as soon as there are some, and may have to wait with what it has taken until
then: a full buffer is committed without a newline.  Bytes are therefore in order when they are
taken, but the returns of calls that overlap may be out of order, and a process that is killed
while it waits loses what its call has taken.  A call that meets a `^D` after some bytes leaves it
to the next call, which returns nothing.

## Main definitions

* `Stream inp log unread line` — the buffer, and the history it is the end of.
* `Ends i n bytes tail` — how a call for `n` bytes ends that has taken `bytes`.
* `Discipline s`, `InOrder s` — what holds in every state, and where calls do not overlap.

## Main results

* `Key.sound`, `readLoop_spec` — one character, one section.
* `console_discipline` — every run.
-/

namespace Xv6.Console

open Function Machine

variable {s s' : State} {inp : Input} {log : List Event} {unread line bs : List UInt8}
  {i j k n target : ℕ} {c : UInt8} {ev : Event} {killed : Bool}

theorem INPUT_BUF_dvd : INPUT_BUF ∣ 2 ^ 32 := by decide

theorem INPUT_BUF_lt : INPUT_BUF < 2 ^ 32 := by decide

@[simp] theorem ring_nread (inp : Input) : inp.ring.nread = inp.r := rfl

@[simp] theorem ring_nwrite (inp : Input) : inp.ring.nwrite = inp.e := rfl

/-- Two places in the buffer, by their distances from one index. -/
theorem add_ofNat_inj (x : BitVec 32) {k m : ℕ} (hk : k ≤ INPUT_BUF) (hm : m ≤ INPUT_BUF) :
    x + BitVec.ofNat 32 k = x + BitVec.ofNat 32 m ↔ k = m := by
  have hlt := INPUT_BUF_lt
  rw [BitVec.add_right_inj, ← BitVec.toNat_inj, BitVec.toNat_ofNat, BitVec.toNat_ofNat,
    Nat.mod_eq_of_lt (by omega), Nat.mod_eq_of_lt (by omega)]

theorem toNat_add_sub (x : BitVec 32) {k : ℕ} (hk : k ≤ INPUT_BUF) :
    (x + BitVec.ofNat 32 k - x).toNat = k := by
  have hlt := INPUT_BUF_lt
  rw [BitVec.add_comm, BitVec.add_sub_cancel, BitVec.toNat_ofNat, Nat.mod_eq_of_lt (by omega)]

/-! ## Histories -/

/-- An event that neither edits nor takes a character. -/
def Event.Quiet (ev : Event) : Prop := ev.item = none ∧ ∀ p, edit p ev = p

theorem quiet_called (i : ℕ) (n : ℤ) : (Event.called i n).Quiet := ⟨rfl, fun _ => rfl⟩

theorem quiet_saved (i : ℕ) : (Event.saved i).Quiet := ⟨rfl, fun _ => rfl⟩

theorem quiet_returned (i : ℕ) (bytes : Option (List UInt8)) : (Event.returned i bytes).Quiet :=
  ⟨rfl, fun _ => rfl⟩

@[simp] theorem consumed_append (l l' : List Event) :
    consumed (l ++ l') = consumed l ++ consumed l' := List.filterMap_append

@[simp] theorem replies_append (l l' : List Event) :
    replies (l ++ l') = replies l ++ replies l' := List.flatMap_append

@[simp] theorem story_append (i : ℕ) (l l' : List Event) :
    story i (l ++ l') = story i l ++ story i l' := List.filter_append ..

theorem story_of_forall {l : List Event} (h : ∀ ev ∈ l, ev.call = some i) : story i l = l :=
  List.filter_eq_self.mpr fun ev hev => by simp [h ev hev]

theorem story_of_ne {l : List Event} (h : ∀ ev ∈ l, ev.call = some i) (hj : j ≠ i) :
    story j l = [] :=
  List.filter_eq_nil_iff.mpr fun ev hev => by simp [h ev hev, Ne.symm hj]

/-! ## The buffer -/

/-- The buffer holds what was committed and not taken, and the line that is being edited. -/
structure Stream (inp : Input) (log : List Event) (unread line : List UInt8) : Prop where
  ring : inp.ring.Holds (unread ++ line)
  w : inp.w = inp.r + BitVec.ofNat 32 unread.length
  typed : log.foldl edit ([], []) = (consumed log ++ unread, line)

theorem stream_idle (buf : Fin INPUT_BUF → UInt8) (x : BitVec 32) :
    Stream (idle buf x).input (idle buf x).log [] [] :=
  ⟨RingBuffer.holds_nil rfl, (BitVec.add_zero x).symm, rfl⟩

namespace Stream

variable (h : Stream inp log unread line)
include h

theorem length_le : unread.length + line.length ≤ INPUT_BUF := by
  simpa using h.ring.length_le

theorem e_eq : inp.e = inp.r + BitVec.ofNat 32 (unread.length + line.length) := by
  simpa using h.ring.count

theorem empty_iff : inp.r = inp.w ↔ unread = [] := by
  have hlen := h.length_le
  have hinj := add_ofNat_inj inp.r (Nat.zero_le INPUT_BUF) (show unread.length ≤ INPUT_BUF by omega)
  rw [BitVec.add_zero, ← h.w] at hinj
  rw [hinj, eq_comm, List.length_eq_zero_iff]

theorem clean_iff : inp.e = inp.w ↔ line = [] := by
  have hlen := h.length_le
  rw [h.e_eq, h.w, add_ofNat_inj _ hlen (by omega), ← List.length_eq_zero_iff]
  omega

/-- **The order of the indices.** -/
theorem indices : (inp.w - inp.r).toNat = unread.length ∧
    (inp.e - inp.r).toNat = unread.length + line.length ∧
    (inp.e - inp.w).toNat = line.length := by
  have hlen := h.length_le
  refine ⟨?_, ?_, ?_⟩
  · rw [h.w, toNat_add_sub _ (by omega)]
  · rw [h.e_eq, toNat_add_sub _ hlen]
  · have he : inp.e = inp.w + BitVec.ofNat 32 line.length := by
      rw [h.e_eq, h.w, BitVec.ofNat_add, BitVec.add_assoc]
    rw [he, toNat_add_sub _ (by omega)]

theorem note (hev : ev.Quiet) : Stream inp (log ++ [ev]) unread line := by
  refine ⟨h.ring, h.w, ?_⟩
  rw [List.foldl_append, h.typed, consumed_append]
  simp [consumed, hev.1, hev.2]

/-- A character of the line is erased. -/
theorem erase (hne : inp.e ≠ inp.w) :
    Stream { inp with e := inp.e - 1 } (log ++ [.erased]) unread line.dropLast := by
  have hline : line ≠ [] := mt h.clean_iff.mpr hne
  refine ⟨?_, h.w, ?_⟩
  · have hring := h.ring
    rw [← List.dropLast_append_getLast hline, ← List.append_assoc] at hring
    exact hring.unput
  · rw [List.foldl_append, h.typed, consumed_append]
    simp [consumed, Event.item, edit]

theorem accept (hroom : (inp.e - inp.r).toNat < INPUT_BUF) (c : UInt8) :
    Stream { inp with
        buf := update inp.buf (RingBuffer.cell INPUT_BUF inp.e) c
        e := inp.e + 1 }
      (log ++ [.accepted c]) unread (line ++ [c]) := by
  refine ⟨?_, h.w, ?_⟩
  · have hput := h.ring.put INPUT_BUF_dvd (by
      rw [List.length_append]
      exact h.indices.2.1 ▸ hroom) c
    rwa [List.append_assoc] at hput
  · rw [List.foldl_append, h.typed, consumed_append]
    simp [consumed, Event.item, edit]

theorem commit : Stream { inp with w := inp.e } (log ++ [.committed]) (unread ++ line) [] := by
  refine ⟨by rw [List.append_nil]; exact h.ring, ?_, ?_⟩
  · rw [List.length_append]
    exact h.e_eq
  · rw [List.foldl_append, h.typed, consumed_append]
    simp [consumed, Event.item, edit]

end Stream

/-- A character is taken. -/
theorem Stream.take (h : Stream inp log (c :: unread) line) (hitem : ev.item = some c)
    (hedit : ∀ p, edit p ev = p) :
    Stream { inp with r := inp.r + 1 } (log ++ [ev]) unread line := by
  refine ⟨h.ring.pop, ?_, ?_⟩
  · rw [h.w, List.length_cons, RingBuffer.add_ofNat_succ]
  · rw [List.foldl_append, h.typed, consumed_append]
    simp [consumed, hitem, hedit]

theorem Stream.char_eq (h : Stream inp log (c :: unread) line) : inp.char inp.r = c :=
  h.ring.front

/-! ## Characters -/

/-- Erasing leaves everything but the end of the line. -/
structure Erased (s s' : State) (unread line : List UInt8) : Prop where
  buf : s'.input.buf = s.input.buf
  r : s'.input.r = s.input.r
  w : s'.input.w = s.input.w
  stream : ∃ left, left <+: line ∧ Stream s'.input s'.log unread left

section

variable (h : Stream s.input s.log unread line)
include h

theorem Erased.refl : Erased s s unread line :=
  ⟨rfl, rfl, rfl, line, List.prefix_refl line, h⟩

theorem erased_erase (hne : s.input.e ≠ s.input.w) :
    Erased s s.erase unread line :=
  ⟨rfl, rfl, rfl, _, List.dropLast_prefix line, h.erase hne⟩

theorem erased_killLine (k : ℕ) :
    Erased s (killLine k s) unread line := by
  induction k generalizing s line with
  | zero => exact .refl h
  | succ k ih =>
    rw [killLine]
    split
    · rename_i hgo
      obtain ⟨hbuf, hr, hw, left, hleft, hstream⟩ := ih (s := s.erase) (h.erase hgo.1)
      exact ⟨hbuf, hr, hw, left, hleft.trans (List.dropLast_prefix line), hstream⟩
    · exact .refl h

/-- The rounds of `C('U')` are enough. -/
theorem killLine_done (hk : line.length ≤ k) :
    ¬((killLine k s).input.e ≠ (killLine k s).input.w ∧
      (killLine k s).input.char ((killLine k s).input.e - 1) ≠ newline) := by
  induction k generalizing s line with
  | zero =>
    have hline : line = [] := List.length_eq_zero_iff.mp (Nat.le_zero.mp hk)
    exact fun hgo => hgo.1 (h.clean_iff.mpr hline)
  | succ k ih =>
    rw [killLine]
    split
    · rename_i hgo
      refine ih (s := s.erase) (h.erase hgo.1) ?_
      rw [List.length_dropLast]
      omega
    · assumption

end

/-- The characters that erase. -/
def Erases (c : UInt8) : Prop := c = C 'H' ∨ c = 0x7f ∨ c = C 'U'

theorem erased_key (h : Stream s.input s.log unread line) (hc : Erases c) :
    Erased s (s.key c) unread line := by
  have hP : c ≠ C 'P' := by
    rcases hc with rfl | rfl | rfl <;> decide
  rw [State.key, if_neg hP]
  split
  · exact erased_killLine h _
  · rename_i hU
    have hH : c = C 'H' ∨ c = 0x7f := by
      rcases hc with hc | hc | hc
      · exact .inl hc
      · exact .inr hc
      · exact absurd hc hU
    rw [if_pos hH]
    split
    · rename_i hne
      exact erased_erase h hne
    · exact .refl h

/-- What an interrupt does. -/
structure Keyed (s s' : State) : Prop where
  calls : s'.calls = s.calls
  next : s'.next = s.next
  log : ∃ evs, s'.log = s.log ++ evs ∧ ∀ ev ∈ evs, ev.call = none ∧ ev.item = none ∧ ev.reply = []

theorem Keyed.refl (s : State) : Keyed s s := ⟨rfl, rfl, [], by simp⟩

theorem Keyed.trans {s'' : State} (h : Keyed s s') (h' : Keyed s' s'') : Keyed s s'' := by
  obtain ⟨evs, hlog, hevs⟩ := h.log
  obtain ⟨evs', hlog', hevs'⟩ := h'.log
  refine ⟨h'.calls.trans h.calls, h'.next.trans h.next, evs ++ evs', by simp [hlog', hlog], ?_⟩
  intro ev hev
  exact (List.mem_append.mp hev).elim (hevs ev) (hevs' ev)

theorem keyed_erase (s : State) : Keyed s s.erase :=
  ⟨rfl, rfl, [.erased], rfl, by simp [Event.call, Event.item, Event.reply]⟩

theorem keyed_accept (s : State) (c : UInt8) : Keyed s (s.accept c) :=
  ⟨rfl, rfl, [.accepted c], rfl, by simp [Event.call, Event.item, Event.reply]⟩

theorem keyed_commit (s : State) : Keyed s s.commit :=
  ⟨rfl, rfl, [.committed], rfl, by simp [Event.call, Event.item, Event.reply]⟩

theorem keyed_killLine (k : ℕ) (s : State) : Keyed s (killLine k s) := by
  induction k generalizing s with
  | zero => exact .refl s
  | succ k ih =>
    rw [killLine]
    split
    · exact (keyed_erase s).trans (ih s.erase)
    · exact .refl s

/-- What a character can do. -/
inductive Key (s : State) : State → Prop
  | ignored : Key s s
  | killed : Key s (killLine (s.input.e - s.input.w).toNat s)
  | erased (hne : s.input.e ≠ s.input.w) : Key s s.erase
  | accepted (c : UInt8) (hroom : (s.input.e - s.input.r).toNat < INPUT_BUF) : Key s (s.accept c)
  | committed (c : UInt8) (hroom : (s.input.e - s.input.r).toNat < INPUT_BUF) :
      Key s (s.accept c).commit

theorem key_cases (s : State) (c : UInt8) : Key s (s.key c) := by
  unfold State.key
  dsimp only
  generalize (if c = 13 then newline else c) = c'
  split_ifs with _ _ _ hne hroom
  · exact .ignored
  · exact .killed
  · exact .erased hne
  · exact .ignored
  · exact .committed c' hroom.2
  · exact .accepted c' hroom.2
  · exact .ignored

theorem Key.keyed (h : Key s s') : Keyed s s' := by
  cases h with
  | ignored => exact .refl s
  | killed => exact keyed_killLine _ s
  | erased _ => exact keyed_erase s
  | accepted c' _ => exact keyed_accept s c'
  | committed c' _ => exact (keyed_accept s c').trans (keyed_commit _)

theorem keyed_consoleintr (s : State) (cs : List UInt8) : Keyed s (consoleintr s cs) := by
  induction cs generalizing s with
  | nil => exact .refl s
  | cons c cs ih => exact (key_cases s c).keyed.trans (ih (s.key c))

/-- The buffer has a history. -/
def State.Sound (s : State) : Prop := ∃ unread line, Stream s.input s.log unread line

/-- **One character.** -/
theorem Key.sound (hkey : Key s s') (h : s.Sound) : s'.Sound := by
  obtain ⟨unread, line, h⟩ := h
  cases hkey with
  | ignored => exact ⟨unread, line, h⟩
  | killed =>
    obtain ⟨-, -, -, left, -, hstream⟩ := erased_killLine h (s.input.e - s.input.w).toNat
    exact ⟨unread, left, hstream⟩
  | erased hne => exact ⟨unread, _, h.erase hne⟩
  | accepted c' hroom => exact ⟨_, _, h.accept hroom c'⟩
  | committed c' hroom => exact ⟨_, _, (h.accept hroom c').commit⟩

theorem State.Sound.consoleintr (h : s.Sound) (cs : List UInt8) : (consoleintr s cs).Sound := by
  induction cs generalizing s with
  | nil => exact h
  | cons c cs ih => exact ih ((key_cases s c).sound h)

/-! ## Calls -/

/-- How a call for `n` bytes ends that has taken `bytes`: it waits; it returns them, since they are
`n` or a line; its process is killed; it takes a `^D` and returns nothing; or it leaves a `^D` and
returns what it has. -/
inductive Ends (i n : ℕ) (bytes : List UInt8) : List Event → Prop
  | waits (hlen : bytes.length < n) (hnl : newline ∉ bytes) : Ends i n bytes []
  | full (hlen : bytes.length = n) (hnl : newline ∉ bytes) :
      Ends i n bytes [.returned i (some bytes)]
  | line (hlen : bytes.length ≤ n) (hnl : newline ∉ bytes.dropLast)
      (hlast : bytes.getLast? = some newline) : Ends i n bytes [.returned i (some bytes)]
  | killed (hlen : bytes.length < n) (hnl : newline ∉ bytes) : Ends i n bytes [.returned i none]
  | eof (hlen : 0 < n) (hnil : bytes = []) : Ends i n bytes [.eof i, .returned i (some bytes)]
  | saved (hlen : bytes.length < n) (hne : bytes ≠ []) (hnl : newline ∉ bytes) :
      Ends i n bytes [.saved i, .returned i (some bytes)]

/-- What is left of the call. -/
def remains (n : ℕ) (bytes : List UInt8) : List Event → Option Call
  | [] => some ⟨n, n - bytes.length, bytes⟩
  | _ :: _ => none

theorem Ends.call {tail : List Event} (h : Ends i n bs tail) : ∀ ev ∈ tail, ev.call = some i := by
  cases h <;> simp [Event.call]

/-- What a section of `consoleread` in call `i` does, with `dst` stored before. -/
structure Section (s s' : State) (i : ℕ) (killed : Bool) (target : ℕ) (dst bytes : List UInt8)
    (tail : List Event) : Prop where
  log : s'.log = s.log ++ (bytes.map (.took i) ++ tail)
  ends : Ends i target (dst ++ bytes) tail
  noEof : C 'D' ∉ dst ++ bytes
  calls : s'.calls = update s.calls i (remains target (dst ++ bytes) tail)
  next : s'.next = s.next
  sound : s'.Sound
  idle : s.input.r = s.input.w → bytes = []
  alive : killed = false → .returned i none ∉ tail

/-- **One section.**  The induction is on the bytes that are still to be taken. -/
theorem readLoop_spec {dst : List UInt8} (h : s.Sound) (htarget : target = n + dst.length)
    (heof : C 'D' ∉ dst) (hnl : newline ∉ dst) :
    ∃ bytes tail, Section s (readLoop i killed target n dst s) i killed target dst bytes tail := by
  induction n generalizing s dst with
  | zero =>
    obtain ⟨unread, line, h⟩ := h
    refine ⟨[], [.returned i (some dst)], ⟨rfl, ?_, by simpa using heof, by simp [remains]; rfl,
      rfl, ⟨unread, line, h.note (quiet_returned i _)⟩, fun _ => rfl, by simp⟩⟩
    rw [List.append_nil]
    exact .full (by omega) hnl
  | succ n ih =>
    obtain ⟨unread, line, h⟩ := h
    rw [readLoop]
    by_cases hempty : s.input.r = s.input.w
    · rw [if_pos hempty]
      by_cases hkilled : killed = true
      · rw [if_pos hkilled]
        refine ⟨[], [.returned i none], ⟨rfl, ?_, by simpa using heof, by simp [remains]; rfl,
          rfl, ⟨unread, line, h.note (quiet_returned i _)⟩, fun _ => rfl, by simp [hkilled]⟩⟩
        rw [List.append_nil]
        exact .killed (by omega) hnl
      · rw [if_neg hkilled]
        refine ⟨[], [], ⟨by simp, ?_, by simpa using heof, ?_, rfl, ⟨unread, line, h⟩,
          fun _ => rfl, by simp⟩⟩
        · rw [List.append_nil]
          exact .waits (by omega) hnl
        · rw [List.append_nil, remains, show target - dst.length = n + 1 by omega]
    · rw [if_neg hempty]
      obtain ⟨c, rest, rfl⟩ := List.exists_cons_of_ne_nil (mt h.empty_iff.mpr hempty)
      have hchar := h.char_eq
      dsimp only
      rw [hchar]
      by_cases hD : c = C 'D'
      · rw [if_pos hD]
        by_cases hlt : n + 1 < target
        · rw [if_pos hlt]
          have hback : s.advance.retreat = s := by
            simp [State.advance, State.retreat, BitVec.add_sub_cancel]
          rw [hback]
          refine ⟨[], [.saved i, .returned i (some dst)], ⟨by simp [State.finish, State.note],
            ?_, by simpa using heof, by simp [remains]; rfl, rfl,
            ⟨c :: rest, line, (h.note (quiet_saved i)).note (quiet_returned i _)⟩,
            fun _ => rfl, by simp⟩⟩
          rw [List.append_nil]
          refine .saved (by omega) ?_ hnl
          rintro rfl
          simp at htarget
          omega
        · rw [if_neg hlt]
          have hdst : dst = [] := List.length_eq_zero_iff.mp (by omega)
          refine ⟨[], [.eof i, .returned i (some dst)], ⟨by simp [State.finish, State.note,
            State.advance], ?_, by simpa using heof, by simp [remains]; rfl, rfl,
            ⟨rest, line, (h.take (by rw [hD]; rfl) fun _ => rfl).note (quiet_returned i _)⟩,
            fun _ => rfl, by simp⟩⟩
          rw [List.append_nil]
          exact .eof (by omega) hdst
      · rw [if_neg hD]
        have htake : Stream (s.advance.note (.took i c)).input (s.advance.note (.took i c)).log
            rest line := h.take rfl fun _ => rfl
        have heof' : C 'D' ∉ dst ++ [c] := by
          simp [heof, Ne.symm hD]
        by_cases hN : c = newline
        · rw [if_pos hN]
          refine ⟨[c], [.returned i (some (dst ++ [c]))], ⟨by simp [State.finish, State.note,
            State.advance], ?_, heof', by simp [remains]; rfl, rfl,
            ⟨rest, line, htake.note (quiet_returned i _)⟩, fun he => absurd he hempty, by simp⟩⟩
          refine .line ?_ (by simpa using hnl) (by simp [hN])
          rw [List.length_append, List.length_singleton]
          omega
        · rw [if_neg hN]
          have hlen : target = n + (dst ++ [c]).length := by
            rw [List.length_append, List.length_singleton]
            omega
          obtain ⟨bytes, tail, hsec⟩ := ih (s := s.advance.note (.took i c)) ⟨rest, line, htake⟩
            hlen heof' (by simp [hnl, Ne.symm hN])
          refine ⟨c :: bytes, tail, ⟨?_, ?_, ?_, ?_, hsec.next, hsec.sound,
            fun he => absurd he hempty, hsec.alive⟩⟩
          · rw [hsec.log]
            simp [State.note, State.advance]
          · simpa using hsec.ends
          · simpa using hsec.noEof
          · have hcalls := hsec.calls
            rw [List.append_assoc] at hcalls
            exact hcalls

/-! ## Runs -/

/-- The story of call `i`. -/
def Told (s : State) (i : ℕ) : Prop :=
  ∃ n bytes tail, story i s.log = .called i n :: (bytes.map (.took i) ++ tail) ∧
    Ends i n.toNat bytes tail ∧ C 'D' ∉ bytes ∧ s.calls i = remains n.toNat bytes tail

structure Inv (s : State) : Prop where
  sound : s.Sound
  told : ∀ i < s.next, Told s i
  fresh : ∀ i, s.next ≤ i → story i s.log = [] ∧ s.calls i = none

theorem inv_idle (buf : Fin INPUT_BUF → UInt8) (x : BitVec 32) : Inv (idle buf x) :=
  ⟨⟨[], [], stream_idle buf x⟩, fun _ hi => absurd hi (Nat.not_lt_zero _), fun _ _ => ⟨rfl, rfl⟩⟩

theorem Keyed.story (h : Keyed s s') (i : ℕ) : story i s'.log = story i s.log := by
  obtain ⟨evs, hlog, hevs⟩ := h.log
  have hnone : Console.story i evs = [] :=
    List.filter_eq_nil_iff.mpr fun ev hev => by simp [(hevs ev hev).1]
  rw [hlog, story_append, hnone, List.append_nil]

theorem Inv.keyed (h : Inv s) (hkey : Keyed s s') (hsound : s'.Sound) : Inv s' := by
  refine ⟨hsound, fun i hi => ?_, fun i hi => ?_⟩
  · rw [Told, hkey.story, hkey.calls]
    exact h.told i (hkey.next ▸ hi)
  · rw [hkey.story, hkey.calls]
    exact h.fresh i (hkey.next ▸ hi)

namespace Section

variable {dst bytes : List UInt8} {tail : List Event}
  (h : Section s s' i killed target dst bytes tail)
include h

theorem call_eq : ∀ ev ∈ bytes.map (Event.took i) ++ tail, ev.call = some i := by
  intro ev hev
  rcases List.mem_append.mp hev with hev | hev
  · obtain ⟨c, -, rfl⟩ := List.mem_map.mp hev
    rfl
  · exact h.ends.call ev hev

theorem story_self : story i s'.log = story i s.log ++ (bytes.map (.took i) ++ tail) := by
  rw [h.log, story_append, story_of_forall h.call_eq]

theorem story_other (hj : j ≠ i) : story j s'.log = story j s.log := by
  rw [h.log, story_append, story_of_ne h.call_eq hj, List.append_nil]

/-- The story of the call goes on, and the others' stay. -/
theorem inv {m : ℤ} (hi : i < s.next) (hm : m.toNat = target)
    (hstory : story i s.log = .called i m :: dst.map (.took i))
    (hothers : ∀ j < s.next, j ≠ i → Told s j)
    (hfresh : ∀ j, s.next ≤ j → story j s.log = [] ∧ s.calls j = none) : Inv s' := by
  refine ⟨h.sound, fun j hj => ?_, fun j hj => ?_⟩
  · rw [h.next] at hj
    by_cases hji : j = i
    · subst hji
      refine ⟨m, dst ++ bytes, tail, ?_, hm ▸ h.ends, h.noEof, ?_⟩
      · rw [h.story_self, hstory]
        simp
      · rw [h.calls, update_self, hm]
    · rw [Told, h.story_other hji, h.calls, update_of_ne hji]
      exact hothers j hj hji
  · rw [h.next] at hj
    have hji : j ≠ i := by omega
    rw [h.story_other hji, h.calls, update_of_ne hji]
    exact hfresh j hj

end Section

/-- A call that sleeps has taken some bytes and can take more. -/
theorem Told.of_calls {call : Call} (h : Told s i) (hcall : s.calls i = some call) :
    ∃ m : ℤ, story i s.log = .called i m :: call.dst.map (.took i) ∧ call.target = m.toNat ∧
      call.target = call.n + call.dst.length ∧ C 'D' ∉ call.dst ∧ newline ∉ call.dst := by
  obtain ⟨m, bytes, tail, hstory, hends, heof, hcalls⟩ := h
  rw [hcall] at hcalls
  cases tail with
  | cons ev tail => cases hcalls
  | nil =>
    cases hcalls
    cases hends with
    | waits hlen hnl =>
      refine ⟨m, by simpa using hstory, rfl, ?_, heof, hnl⟩
      dsimp only
      omega

theorem Inv.lt_next {call : Call} (h : Inv s) (hcall : s.calls i = some call) : i < s.next := by
  by_contra hge
  rw [(h.fresh i (by omega)).2] at hcall
  cases hcall

/-- A new call, before its first section. -/
def State.begin (s : State) (n : ℤ) : State := { s with next := s.next + 1 }.note (.called s.next n)

theorem story_begin_self (h : Inv s) (m : ℤ) :
    story s.next (s.begin m).log = [.called s.next m] := by
  rw [State.begin, State.note, story_append, (h.fresh s.next le_rfl).1]
  simp [story, Event.call]

theorem story_begin_other (s : State) (m : ℤ) (hj : j ≠ s.next) :
    story j (s.begin m).log = story j s.log := by
  simp [State.begin, State.note, story, Event.call, Ne.symm hj]

theorem consoleread_section (h : Inv s) (m : ℤ) (killed : Bool) : ∃ bytes tail,
    Section (s.begin m) (consoleread s m killed) s.next killed m.toNat [] bytes tail := by
  obtain ⟨unread, line, hstream⟩ := h.sound
  exact readLoop_spec ⟨unread, line, hstream.note (quiet_called s.next m)⟩ rfl (by simp) (by simp)

theorem resume_section (h : Inv s) {call : Call} (hcall : s.calls i = some call) (killed : Bool) :
    ∃ bytes tail, Section s (readLoop i killed call.target call.n call.dst s) i killed call.target
      call.dst bytes tail := by
  obtain ⟨m, -, -, hlen, heof, hnl⟩ := (h.told i (h.lt_next hcall)).of_calls hcall
  exact readLoop_spec h.sound hlen heof hnl

/-- **Every step.** -/
theorem Inv.step {a : Action} (h : Inv s) (hs : step s a = some s') : Inv s' := by
  cases a with
  | intr cs =>
    cases hs
    exact h.keyed (keyed_consoleintr s cs) (h.sound.consoleintr cs)
  | read m killed =>
    cases hs
    obtain ⟨bytes, tail, hsec⟩ := consoleread_section h m killed
    refine hsec.inv (m := m) (Nat.lt_succ_self s.next) rfl (story_begin_self h m) ?_ ?_
    · intro j hj hne
      have hlt : j < s.next + 1 := hj
      rw [Told, story_begin_other s m hne]
      exact h.told j (by omega)
    · intro j hj
      have hle : s.next + 1 ≤ j := hj
      rw [story_begin_other s m (by omega)]
      exact h.fresh j (by omega)
  | resume i killed =>
    obtain ⟨call, hcall, rfl⟩ := Option.map_eq_some_iff.mp hs
    obtain ⟨bytes, tail, hsec⟩ := resume_section h hcall killed
    have hi := h.lt_next hcall
    obtain ⟨m, hstory, htarget, -⟩ := (h.told i hi).of_calls hcall
    exact hsec.inv hi htarget.symm hstory (fun j hj _ => h.told j hj) h.fresh

/-! ## Calls that do not overlap -/

/-- The bytes taken, in this order. -/
def taken (log : List Event) : List UInt8 := (consumed log).filter (· ≠ C 'D')

/-- What is returned is what is taken: `pending` is what the call that waits has taken. -/
structure Orderly (s : State) (pending : List UInt8) : Prop where
  replies : replies s.log ++ pending = taken s.log
  calls : ∀ i c, s.calls i = some c → c.dst = [] ∨ c.dst = pending
  owner : pending = [] ∨ ∃ i c, s.calls i = some c ∧ c.dst = pending

theorem orderly_idle (buf : Fin INPUT_BUF → UInt8) (x : BitVec 32) : Orderly (idle buf x) [] where
  replies := rfl
  calls _ _ hc := nomatch hc
  owner := .inl rfl

/-- No other call waits with bytes that it has taken, and the process is not killed with bytes in
its hands. -/
def Alone (s : State) : Action → Prop
  | .intr _ => True
  | .read _ killed =>
    (∀ j c, s.calls j = some c → c.dst = []) ∧ (killed = true → s.input.r = s.input.w)
  | .resume i killed =>
    (∀ j c, s.calls j = some c → j ≠ i → c.dst = []) ∧
      (killed = true → s.input.r = s.input.w ∧ ∀ c, s.calls i = some c → c.dst = [])

@[simp] theorem taken_append (l l' : List Event) : taken (l ++ l') = taken l ++ taken l' := by
  simp [taken]

theorem taken_took (i : ℕ) (h : C 'D' ∉ bs) : taken (bs.map (.took i)) = bs := by
  have hconsumed : consumed (bs.map (.took i)) = bs := by
    simp [consumed, List.filterMap_map, Function.comp_def, Event.item]
  rw [taken, hconsumed, List.filter_eq_self]
  intro c hc
  simpa using fun heq : c = C 'D' => h (heq ▸ hc)

theorem replies_took (i : ℕ) (bs : List UInt8) : replies (bs.map (.took i)) = [] := by
  simp [replies, List.flatMap_map, Event.reply]

theorem Keyed.orderly {pending : List UInt8} (hkey : Keyed s s') (h : Orderly s pending) :
    Orderly s' pending := by
  obtain ⟨evs, hlog, hevs⟩ := hkey.log
  have hconsumed : consumed evs = [] :=
    List.filterMap_eq_nil_iff.mpr fun ev hev => (hevs ev hev).2.1
  have hreplies : Console.replies evs = [] :=
    List.flatMap_eq_nil_iff.mpr fun ev hev => (hevs ev hev).2.2
  refine ⟨?_, by rw [hkey.calls]; exact h.calls, by rw [hkey.calls]; exact h.owner⟩
  rw [hlog, replies_append, taken_append, hreplies, taken, taken, hconsumed, List.append_nil]
  simpa [taken] using h.replies

theorem Ends.taken_eq {tail : List Event} (h : Ends i n bs tail) : taken tail = [] := by
  cases h <;> rfl

/-- A call waits, fails, or returns what it has taken. -/
theorem Ends.outcome {tail : List Event} (h : Ends i n bs tail) :
    tail = [] ∨ tail = [.returned i none] ∨ tail ≠ [] ∧ replies tail = bs := by
  cases h <;> simp [replies, Event.reply]

/-- A section of a call that has taken all that is pending. -/
theorem Section.orderly {dst bytes : List UInt8} {tail : List Event}
    (h : Section s s' i killed target dst bytes tail)
    (hreplies : Console.replies s.log ++ dst = taken s.log)
    (hothers : ∀ j c, s.calls j = some c → j ≠ i → c.dst = [])
    (hkilled : killed = true → s.input.r = s.input.w ∧ dst = []) :
    ∃ pending, Orderly s' pending := by
  have heof := h.noEof
  have htaken : taken s'.log = Console.replies s.log ++ (dst ++ bytes) := by
    rw [h.log, taken_append, taken_append, ← hreplies, h.ends.taken_eq,
      taken_took i fun hmem => heof (List.mem_append_right dst hmem)]
    simp
  have hcalls : s'.calls i = remains target (dst ++ bytes) tail := by
    rw [h.calls, update_self]
  have hrest : ∀ j c, s'.calls j = some c → j ≠ i → c.dst = [] := by
    intro j c hc hj
    rw [h.calls, update_of_ne hj] at hc
    exact hothers j c hc hj
  have hlog : Console.replies s'.log = Console.replies s.log ++ Console.replies tail := by
    rw [h.log, replies_append, replies_append, replies_took, List.nil_append]
  -- A call that has returned leaves nothing behind.
  have hdone : tail ≠ [] → Console.replies tail = dst ++ bytes → Orderly s' [] := by
    intro htail heq
    refine ⟨by rw [hlog, htaken, heq, List.append_nil], fun j c hc => .inl ?_, .inl rfl⟩
    by_cases hj : j = i
    · subst hj
      obtain ⟨ev, rest, rfl⟩ := List.exists_cons_of_ne_nil htail
      rw [hcalls] at hc
      cases hc
    · exact hrest j c hc hj
  have halive := h.alive
  rcases h.ends.outcome with rfl | rfl | ⟨hne, heq⟩
  · refine ⟨dst ++ bytes, ?_, fun j c hc => ?_, .inr ⟨i, _, hcalls, rfl⟩⟩
    · rw [htaken, hlog]
      simp [Console.replies]
    · by_cases hj : j = i
      · subst hj
        rw [hcalls] at hc
        exact .inr (by rw [← Option.some.inj hc])
      · exact .inl (hrest j c hc hj)
  · cases killed with
    | false => exact absurd List.mem_cons_self (halive rfl)
    | true =>
      obtain ⟨hrw, rfl⟩ := hkilled rfl
      exact ⟨[], hdone (by simp) (by rw [h.idle hrw]; rfl)⟩
  · exact ⟨[], hdone hne heq⟩

/-- **A step of calls that do not overlap.** -/
theorem Orderly.step {pending : List UInt8} {a : Action} (hinv : Inv s) (h : Orderly s pending)
    (halone : Alone s a) (hs : step s a = some s') : ∃ pending, Orderly s' pending := by
  cases a with
  | intr cs =>
    cases hs
    exact ⟨pending, (keyed_consoleintr s cs).orderly h⟩
  | read m killed =>
    cases hs
    obtain ⟨bytes, tail, hsec⟩ := consoleread_section hinv m killed
    have hnil : pending = [] := by
      rcases h.owner with hnil | ⟨i, c, hc, rfl⟩
      · exact hnil
      · exact halone.1 i c hc
    have hreplies := h.replies
    rw [hnil, List.append_nil] at hreplies
    refine hsec.orderly ?_ (fun j c hc _ => halone.1 j c hc) fun hk => ⟨halone.2 hk, rfl⟩
    have hquiet : Console.replies [.called s.next m] = [] ∧ taken [.called s.next m] = [] :=
      ⟨rfl, rfl⟩
    rw [State.begin, State.note, replies_append, taken_append, hquiet.1, hquiet.2, hreplies,
      List.append_nil]
  | resume i killed =>
    obtain ⟨call, hcall, rfl⟩ := Option.map_eq_some_iff.mp hs
    obtain ⟨bytes, tail, hsec⟩ := resume_section hinv hcall killed
    have hown : call.dst = pending := by
      rcases h.owner with hnil | ⟨j, c, hc, rfl⟩
      · rcases h.calls i call hcall with hdst | hdst
        · rw [hdst, hnil]
        · exact hdst
      · by_cases hj : j = i
        · subst hj
          rw [hcall] at hc
          rw [Option.some.inj hc]
        · rcases h.calls i call hcall with hdst | hdst
          · rw [hdst, halone.1 j c hc hj]
          · exact hdst
    refine hsec.orderly (hown ▸ h.replies) halone.1 fun hk => ?_
    exact ⟨(halone.2 hk).1, (halone.2 hk).2 call hcall⟩

/-! ## The discipline -/

/-- What holds in every state: the order of the indices; that keys which erase leave what is
before `w` alone; that the characters taken, in the order in which they are taken, and those from
`r` to `w` are what was committed; and the story of every call. -/
structure Discipline (s : State) : Prop where
  indices : (s.input.w - s.input.r).toNat ≤ (s.input.e - s.input.r).toNat ∧
    (s.input.e - s.input.r).toNat ≤ INPUT_BUF
  editing : ∀ c, Erases c → (s.key c).input.buf = s.input.buf ∧
    (s.key c).input.r = s.input.r ∧ (s.key c).input.w = s.input.w ∧
    ((s.key c).input.e - s.input.w).toNat ≤ (s.input.e - s.input.w).toNat
  stream : ∃ unread, committed s.log = consumed s.log ++ unread ∧
    unread.length = (s.input.w - s.input.r).toNat ∧
    ∀ k (hk : k < unread.length), s.input.char (s.input.r + BitVec.ofNat 32 k) = unread[k]
  calls : ∀ i < s.next, ∃ n bytes tail,
    story i s.log = .called i n :: (bytes.map (.took i) ++ tail) ∧
    Ends i n.toNat bytes tail ∧ C 'D' ∉ bytes

/-- The bytes returned, in the order of the returns, and those of a call that waits are the bytes
taken. -/
def InOrder (s : State) : Prop :=
  ∃ pending, replies s.log ++ pending = (consumed s.log).filter (· ≠ C 'D') ∧
    (pending = [] ∨ ∃ i c, s.calls i = some c ∧ c.dst = pending)

theorem Inv.discipline (h : Inv s) : Discipline s := by
  obtain ⟨unread, line, hstream⟩ := h.sound
  obtain ⟨hwr, her, hew⟩ := hstream.indices
  have hlen := hstream.length_le
  refine ⟨by omega, fun c hc => ?_, ⟨unread, ?_, hwr.symm, fun k hk => ?_⟩, fun i hi => ?_⟩
  · obtain ⟨hbuf, hr, hw, left, hleft, hstream'⟩ := erased_key hstream hc
    refine ⟨hbuf, hr, hw, ?_⟩
    rw [← hw, hstream'.indices.2.2, hw, hew]
    exact hleft.length_le
  · rw [committed, hstream.typed]
  · have hget := hstream.ring.get k (by rw [List.length_append]; omega)
    rwa [List.getElem_append_left hk] at hget
  · obtain ⟨n, bytes, tail, hstory, hends, heof, -⟩ := h.told i hi
    exact ⟨n, bytes, tail, hstory, hends, heof⟩

/-- **The line discipline.**  For any interrupts and any number of calls of any lengths, in any
interleaving, with any processes killed, and wherever the indices start.  Bytes are returned in
the order in which they are taken if no call takes bytes while another waits with some, and no
process is killed with bytes in its hands. -/
theorem console_discipline (buf : Fin INPUT_BUF → UInt8) (x : BitVec 32) (as : List Action)
    (hrun : exec step (idle buf x) as = some s) :
    Discipline s ∧ (Along step Alone (idle buf x) as → InOrder s) := by
  have hinv : Inv s :=
    exec_invariant (fun _ _ _ h _ hs => h.step hs) (inv_idle buf x) along_true hrun
  refine ⟨hinv.discipline, fun halone => ?_⟩
  have horderly : Inv s ∧ ∃ pending, Orderly s pending := by
    refine exec_invariant (I := fun s => Inv s ∧ ∃ pending, Orderly s pending)
      (fun s a s' h ha hs => ?_) ?_ halone hrun
    · obtain ⟨hinv, pending, horderly⟩ := h
      exact ⟨hinv.step hs, horderly.step hinv ha hs⟩
    · exact ⟨inv_idle buf x, [], orderly_idle buf x⟩
  obtain ⟨-, pending, horderly⟩ := horderly
  exact ⟨pending, horderly.replies, horderly.owner⟩

/-- A line is typed, with a correction, and read. -/
def oneLine : List Action := [.intr [0x68, 0x6f, 0x7f, 0x69, newline], .read 100 false]

theorem console_discipline_oneLine : ∃ s, exec step (idle (fun _ => 0) 0) oneLine = some s ∧
    Discipline s ∧ InOrder s := by
  obtain ⟨s, hs⟩ : ∃ s, exec step (idle (fun _ => 0) 0) oneLine = some s := ⟨_, rfl⟩
  have hall := console_discipline _ _ _ hs
  refine ⟨s, hs, hall.1, hall.2 ?_⟩
  refine along_cons.mpr ⟨trivial, fun t ht => along_cons.mpr ⟨⟨fun j c hc => ?_, ?_⟩, ?_⟩⟩
  · cases ht
    rw [(keyed_consoleintr _ _).calls] at hc
    cases hc
  · exact fun h => absurd h Bool.false_ne_true
  · exact fun _ _ => trivial

/-- Call 0 takes a full buffer and waits; call 1 takes the next line and returns; call 0 takes
the line after that. -/
def overlap : List Action :=
  [.intr (List.replicate 128 0x78), .read 200 false, .intr [0x68, 0x69, newline], .read 100 false,
    .resume 0 false, .intr [0x79, 0x6f, newline], .resume 0 false]

/-- Call 0 takes a full buffer and waits, and its process is killed. -/
def killedReader : List Action :=
  [.intr (List.replicate 128 0x78), .read 200 false, .resume 0 true]

/-- Two bytes and a `^D`, and two calls. -/
def endOfFile : List Action :=
  [.intr [0x68, 0x69, C 'D'], .read 100 false, .read 100 false]

/-- **Out of order, and lost.**  The line that was taken last but one is returned first; bytes are
taken and never returned; and one `^D` ends two calls. -/
theorem console_out_of_order :
    (exec step (idle (fun _ => 0) 0) overlap).map (fun s => (committed s.log, replies s.log)) =
      some (List.replicate 128 0x78 ++ [0x68, 0x69, newline, 0x79, 0x6f, newline],
        [0x68, 0x69, newline] ++ List.replicate 128 0x78 ++ [0x79, 0x6f, newline]) ∧
    (exec step (idle (fun _ => 0) 0) killedReader).map
        (fun s => (committed s.log, replies s.log, s.input.w - s.input.r)) =
      some (List.replicate 128 0x78, [], 0) ∧
    (exec step (idle (fun _ => 0) 0) endOfFile).map (fun s => (story 0 s.log, story 1 s.log)) =
      some ([.called 0 100, .took 0 0x68, .took 0 0x69, .saved 0,
          .returned 0 (some [0x68, 0x69])],
        [.called 1 100, .eof 1, .returned 1 (some [])]) := by
  refine ⟨?_, ?_, ?_⟩ <;> decide +kernel

end Xv6.Console
