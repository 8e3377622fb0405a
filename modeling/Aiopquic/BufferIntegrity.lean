import Aiopquic.BufferCodecs
import Aiopquic.Lib.Steps

/-!
# The bytes of a `Buffer`

A run of calls beside a record of what was pushed where. A buffer that was made from data is to keep
it, and one that was made to be written is to give out only what was pushed. `push_bytes` does not
ask whether the buffer is there to be written, and the reads ask for the capacity, not for what was
pushed, so both hold only as far as the caller sees to it (`integrity_iff`).
-/

namespace Aiopquic

open Circular (copyIn copyOut copyOut_length)
open Fallible (raise get)

/-! ## Reads -/

/-- A call that reads bytes. -/
inductive BufferRead
  | uint8
  | uint16
  | uint32
  | uint64
  | uint (n : Int32)
  | uintVar
  | uintVi64
  | vint
  | bytes (n : Int64)
  | data
  | dataSlice (start stop : Int64)
  deriving DecidableEq

/-- What a read gives. -/
inductive BufferValue
  | number (n : ℕ)
  | bytes (data : List UInt8)
  deriving DecidableEq

namespace BufferRead

open Buffer

/-- The call, with its value. -/
def run : BufferRead → Op BufferValue
  | uint8 => pullUint8 >>= fun n => pure (.number n)
  | uint16 => pullUint16 >>= fun n => pure (.number n)
  | uint32 => pullUint32 >>= fun n => pure (.number n)
  | uint64 => pullUint64 >>= fun n => pure (.number n)
  | uint n => pullUint n >>= fun n => pure (.number n)
  | uintVar => pullUintVar >>= fun n => pure (.number n)
  | uintVi64 => pullUintVi64 >>= fun n => pure (.number n)
  | vint => pullVint >>= fun n => pure (.number n)
  | bytes n => pullBytes n >>= fun out => pure (.bytes out)
  | data => Buffer.data >>= fun out => pure (.bytes out)
  | dataSlice start stop => Buffer.dataSlice start stop >>= fun out => pure (.bytes out)

/-- The value of the bytes that a call reads from a buffer of a flavour. -/
def value (vi64 : Bool) (raw : List UInt8) : BufferRead → BufferValue
  | uint8 | uint16 | uint32 | uint64 | uint _ => .number (beValue raw)
  | uintVar => .number (vintValue false raw)
  | uintVi64 => .number (vintValue true raw)
  | vint => .number (vintValue vi64 raw)
  | bytes _ | data | dataSlice _ _ => .bytes raw

/-- The first position and the number of bytes that a call has read: a pull moves the cursor over
them. -/
def covered (b b' : Buffer) : BufferRead → ℕ × ℕ
  | data => (0, b.pos)
  | dataSlice start stop => (start.toInt.toNat, (stop.toInt - start.toInt).toNat)
  | _ => (b.pos, b'.pos - b.pos)

/-- As many bytes from the cursor on, if the memory has them. -/
def ahead (b : Buffer) (n : ℕ) : Option (ℕ × ℕ) := if b.pos + n ≤ b.capacity then some
    (b.pos, n) else none

/-- The positions that a call reads, if they are in the memory. -/
def window (b : Buffer) : BufferRead → Option (ℕ × ℕ)
  | uint8 => ahead b 1
  | uint16 => ahead b 2
  | uint32 => ahead b 4
  | uint64 => ahead b 8
  | uint n => if n.toInt < 0 then none else ahead b n.toInt.toNat
  | uintVar => (vintAt false b.rest).map fun found => (b.pos, found.2)
  | uintVi64 => (vintAt true b.rest).map fun found => (b.pos, found.2)
  | vint => (vintAt b.vi64 b.rest).map fun found => (b.pos, found.2)
  | bytes n => if n.toInt < 0 then none else ahead b n.toInt.toNat
  | data => some (0, b.pos)
  | dataSlice start stop =>
    if start.toInt < 0 ∨ b.capacity < stop.toInt ∨ stop.toInt < start.toInt then none
    else some (start.toInt.toNat, (stop.toInt - start.toInt).toNat)

/-! ### What a read does -/

variable {b : Buffer} {x : Op BufferValue} {covers : Buffer → ℕ × ℕ} {win : Option (ℕ × ℕ)}
  {val : List UInt8 → BufferValue}

/-- A read gives the value of a window of the memory, which it covers, and changes no more than the
cursor. Without a window it raises, and changes nothing. -/
def Gives (b : Buffer) (x : Op BufferValue) (win : Option (ℕ × ℕ)) (val : List UInt8 → BufferValue)
    (covers : Buffer → ℕ × ℕ) : Prop :=
  match win with
  | some (start, n) =>
    start + n ≤ b.capacity ∧ ∃ pos h,
      x b = (.ok (val (copyOut b.buf start n)), { b with pos := pos, pos_le := h }) ∧
      covers { b with pos := pos, pos_le := h } = (start, n)
  | none => ∃ e, x b = (.error e, b)

theorem Gives.of_eq {y : Op BufferValue} (h : Gives b y win val covers) (heq : x b = y b) :
    Gives b x win val covers := by
  unfold Gives at h ⊢
  rwa [heq]

theorem gives_pullBe (n : ℕ) (hcovers : covers = fun b' => (b.pos, b'.pos - b.pos)) :
    Gives b (pullBe n >>= fun v => pure (.number v)) (ahead b n) (fun raw => .number (beValue raw))
    covers := by
  subst hcovers
  rw [ahead]
  rcases le_or_gt (b.pos + n) b.capacity with hle | hlt
  · rw [if_pos hle]
    refine ⟨hle, b.pos + n, hle, ?_, ?_⟩
    · exact Fallible.bind_ok (pulling_of_le hle)
    · exact congrArg (Prod.mk b.pos) (Nat.add_sub_cancel_left ..)
  · rw [if_neg (not_le.2 hlt)]
    exact ⟨_, Fallible.bind_error (pulling_of_lt hlt)⟩

theorem gives_vint (vi64 : Bool) (hcovers : covers = fun b' => (b.pos, b'.pos - b.pos)) :
    Gives b (pullFlavour vi64 >>= fun v => pure (.number v))
      ((vintAt vi64 b.rest).map fun found => (b.pos, found.2))
      (fun raw => .number (vintValue vi64 raw)) covers := by
  subst hcovers
  cases hat : vintAt vi64 b.rest with
  | none => exact ⟨_, Fallible.bind_error (pullFlavour_none hat)⟩
  | some found =>
    obtain ⟨v, width⟩ := found
    obtain ⟨hle, hpull⟩ := pullFlavour_some hat
    refine ⟨hle, b.pos + width, hle, ?_, ?_⟩
    · refine (Fallible.bind_ok hpull).trans ?_
      simp only [← rest_take hle, vintValue_take hat]
      rfl
    · exact congrArg (Prod.mk b.pos) (Nat.add_sub_cancel_left ..)

/-- Bytes of the memory, without the cursor. -/
theorem pyBytes_of_le {start n : ℕ} (h : start + n ≤ b.capacity) :
    pyBytes start n b = (.ok (copyOut b.buf start n), b) := by
  have hlt := b.capacity_lt
  rw [pyBytes, Fallible.get_bind, if_neg (by omega), if_neg (by omega), if_neg (by omega),
    Int.toNat_natCast]
  rfl

theorem gives_slice {start n : ℕ} (h : start + n ≤ b.capacity)
    (hcovers : covers = fun _ => (start, n)) :
    Gives b (pyBytes start n >>= fun out => pure (.bytes out)) (some (start, n)) .bytes covers := by
  subst hcovers
  exact ⟨h, b.pos, b.pos_le, Fallible.bind_ok (pyBytes_of_le h), rfl⟩

theorem ssize_eq {n : ℤ} (hle : -2 ^ 63 ≤ n) (hlt : n < 2 ^ 63) : ssize n = n :=
  Int.bmod_eq_of_le (by simpa using hle) (by simpa using hlt)

theorem pullBytes_of_le {m : Int64} {n : ℕ} (hm : m.toInt = n) (h : b.pos + n ≤ b.capacity) :
    pullBytes m b = (.ok (copyOut b.buf b.pos n), b.advance n h) := by
  have hlt := b.capacity_lt
  have hsum : ssize ((b.pos : ℤ) + n) = b.pos + n := ssize_eq (by omega) (by omega)
  rw [pullBytes, Fallible.get_bind, hm, if_neg (by omega), hsum, if_neg (by omega),
    Fallible.bind_ok (pyBytes_of_le h), Int.toNat_natCast, dif_pos h]
  rfl

/-- A length for which the sum with the cursor overflows is one that there is no memory for. -/
theorem pullBytes_of_lt {m : Int64} {n : ℕ} (hm : m.toInt = n) (h : b.capacity < b.pos + n) :
    ∃ e, pullBytes m b = (.error e, b) := by
  have hpos := b.pos_le
  have hcap := b.capacity_lt
  rw [pullBytes, Fallible.get_bind, hm, if_neg (by omega)]
  by_cases hsum : (b.capacity : ℤ) < ssize (b.pos + n)
  · exact ⟨.readOutOfBounds, by rw [if_pos hsum]; rfl⟩
  · rw [if_neg hsum]
    have hlong : (2 : ℤ) ^ 62 ≤ n := by
      by_contra hshort
      rw [ssize_eq (by omega) (by omega)] at hsum
      omega
    obtain ⟨e, hbytes⟩ : ∃ e, pyBytes b.pos n b = (.error e, b) := by
      rw [pyBytes, Fallible.get_bind, if_neg (by omega)]
      split
      · exact ⟨.intOverflow, rfl⟩
      · exact ⟨.memory, rfl⟩
    exact ⟨e, Fallible.bind_error hbytes⟩

theorem gives_bytes (m : Int64) :
    Gives b (pullBytes m >>= fun out => pure (.bytes out))
      (if m.toInt < 0 then none else ahead b m.toInt.toNat) .bytes
      fun b' => (b.pos, b'.pos - b.pos) := by
  by_cases hneg : m.toInt < 0
  · rw [if_pos hneg]
    refine ⟨.negativeRead, Fallible.bind_error ?_⟩
    rw [pullBytes, Fallible.get_bind, if_pos hneg]
    rfl
  · obtain ⟨n, hn⟩ : ∃ n : ℕ, m.toInt = n := ⟨m.toInt.toNat, by omega⟩
    rw [if_neg hneg, hn, Int.toNat_natCast, ahead]
    rcases le_or_gt (b.pos + n) b.capacity with hle | hlt
    · rw [if_pos hle]
      exact ⟨hle, b.pos + n, hle, Fallible.bind_ok (pullBytes_of_le hn hle),
        congrArg (Prod.mk b.pos) (Nat.add_sub_cancel_left ..)⟩
    · rw [if_neg (not_le.2 hlt)]
      obtain ⟨e, he⟩ := pullBytes_of_lt hn hlt
      exact ⟨e, Fallible.bind_error he⟩

/-- Each read does that. -/
theorem gives (b : Buffer) (c : BufferRead) :
    Gives b c.run (c.window b) (fun raw => c.value b.vi64 raw) fun b' => c.covered b b' := by
  cases c with
  | uint8 =>
    show Gives b (pullUint8 >>= _) _ _ _
    rw [pullUint8_eq]
    exact gives_pullBe 1 rfl
  | uint16 =>
    show Gives b (pullUint16 >>= _) _ _ _
    rw [pullUint16_eq]
    exact gives_pullBe 2 rfl
  | uint32 =>
    show Gives b (pullUint32 >>= _) _ _ _
    rw [pullUint32_eq]
    exact gives_pullBe 4 rfl
  | uint64 =>
    show Gives b (pullUint64 >>= _) _ _ _
    rw [pullUint64_eq]
    exact gives_pullBe 8 rfl
  | uint n =>
    show Gives b (pullUint n >>= fun v => pure (.number v)) (if n.toInt < 0 then none else _) _ _
    rw [pullUint_eq]
    split
    · exact ⟨_, rfl⟩
    · exact gives_pullBe _ rfl
  | uintVar =>
    show Gives b (pullUintVar >>= fun v => pure (.number v)) _ _ _
    rw [pullUintVar_eq]
    exact gives_vint false rfl
  | uintVi64 =>
    show Gives b (pullUintVi64 >>= fun v => pure (.number v)) _ _ _
    rw [pullUintVi64_eq]
    exact gives_vint true rfl
  | vint =>
    have hgives := gives_vint b.vi64 (rfl : (fun b' : Buffer => (b.pos, b'.pos - b.pos)) = _)
    refine hgives.of_eq ?_
    show (pullVint >>= _) b = _
    rw [pullVint, Fallible.bind_assoc, Fallible.get_bind, pullUintVi64_eq, pullUintVar_eq]
    cases hvi : b.vi64 with
    | false => rfl
    | true => rfl
  | bytes n => exact gives_bytes n
  | data =>
    refine (gives_slice (show 0 + b.pos ≤ b.capacity from ?_) rfl).of_eq ?_
    · rw [Nat.zero_add]
      exact b.pos_le
    · show (Buffer.data >>= _) b = _
      rw [Buffer.data, Fallible.bind_assoc, Fallible.get_bind]
  | dataSlice start stop =>
    by_cases h : start.toInt < 0 ∨ b.capacity < stop.toInt ∨ stop.toInt < start.toInt
    · rw [window, if_pos h]
      refine ⟨.sliceOutOfBounds start.toInt stop.toInt, ?_⟩
      show (Buffer.dataSlice start stop >>= _) b = _
      rw [Buffer.dataSlice, Fallible.bind_assoc, Fallible.get_bind, if_pos h]
      rfl
    · have hlen : ((stop.toInt - start.toInt).toNat : ℤ) = stop.toInt - start.toInt := by omega
      rw [window, if_neg h]
      refine (gives_slice ?_ rfl).of_eq ?_
      · omega
      · show (Buffer.dataSlice start stop >>= _) b = _
        rw [Buffer.dataSlice, Fallible.bind_assoc, Fallible.get_bind, if_neg h, hlen]

end BufferRead

/-! ## Runs -/

inductive BufferCall
  | read (call : BufferRead)
  | push (call : PushCall)
  | seek (pos : Int64)
  | setVi64 (value : Bool)
  deriving DecidableEq

/-- A buffer, and what was last pushed at each position. -/
structure BufferRun where
  buffer : Buffer
  written : ℕ → Option UInt8

namespace BufferRun

/-- A new buffer, on which nothing was pushed yet. -/
def start (b : Buffer) : BufferRun := ⟨b, fun _ => none⟩

/-- The buffer after a call. -/
def after (s : BufferRun) (heap : Heap) : BufferCall → Buffer
  | .read call => (call.run s.buffer).2
  | .push call => (call.run heap s.buffer).2
  | .seek pos => (Buffer.seek pos s.buffer).2
  | .setVi64 value => (Buffer.setVi64 value s.buffer).2

/-- The record after a call: a push that returns has put its bytes at the cursor. -/
def record (s : BufferRun) (heap : Heap) : BufferCall → ℕ → Option UInt8
  | .push call =>
    match (call.run heap s.buffer).1, call.pushed s.buffer.vi64 with
    | .ok (), some raw => copyIn s.written s.buffer.pos (raw.map some)
    | _, _ => s.written
  | _ => s.written

/-- A call that may find more or less memory than the one before. -/
def step (s : BufferRun) (call : Heap × BufferCall) : Option BufferRun :=
  some ⟨s.after call.1 call.2, s.record call.1 call.2⟩

/-- A push of at least one byte. -/
def Pushes : BufferCall → Prop
  | .push (.bytes data) => data ≠ []
  | .push (.uint n _) => 0 < n.toInt
  | .push _ => True
  | _ => False

/-- A call raises. -/
def Raises (s : BufferRun) (heap : Heap) : BufferCall → Prop
  | .read call => ∃ e, (call.run s.buffer).1 = .error e
  | .push call => ∃ e, (call.run heap s.buffer).1 = .error e
  | .seek pos => ∃ e, (Buffer.seek pos s.buffer).1 = .error e
  | .setVi64 _ => False

/-- On a buffer that was made from data a call leaves the bytes as they are, and a push raises and
leaves the cursor, too. -/
def KeepsData (s : BufferRun) (call : Heap × BufferCall) : Prop :=
  (∀ i < s.buffer.capacity, (s.after call.1 call.2).buf i = s.buffer.buf i) ∧
    (s.after call.1 call.2).capacity = s.buffer.capacity ∧
    (Pushes call.2 → s.Raises call.1 call.2 ∧ (s.after call.1 call.2).pos = s.buffer.pos)

/-- On one that was made to be written a read gives the value of bytes that were pushed where it
reads. -/
def ReadsPushed (s : BufferRun) (call : Heap × BufferCall) : Prop :=
  ∀ c v b', call.2 = .read c → c.run s.buffer = (.ok v, b') →
    ∃ raw, copyOut s.written (c.covered s.buffer b').1 (c.covered s.buffer b').2 = raw.map some ∧
      v = c.value s.buffer.vi64 raw

/-- The contents of the buffer keep their integrity in a call. -/
def Integrity (s : BufferRun) (call : Heap × BufferCall) : Prop :=
  if s.buffer.growable then s.ReadsPushed call else s.KeepsData call

/-- What a caller has to see to: no bytes are pushed with `push_bytes` where a buffer that was made
from data has room for them, and what is read from one that was made to be written, and is inside
its memory, was pushed. -/
def Careful (s : BufferRun) (call : Heap × BufferCall) : Prop :=
  if s.buffer.growable then
    ∀ c start n, call.2 = .read c → c.window s.buffer = some (start, n) →
      ∀ i < n, (s.written (start + i)).isSome
  else
    ∀ data, call.2 = .push (.bytes data) → data ≠ [] → s.buffer.capacity < s.buffer.pos +
      data.length

/-! ## The record -/

/-- On a buffer that was made to be written the record is right. -/
def Recorded (s : BufferRun) : Prop :=
  s.buffer.growable = true → ∀ i v, s.written i = some v → i < s.buffer.capacity ∧
    s.buffer.buf i = v

variable {s s' : BufferRun} {call : Heap × BufferCall} {heap : Heap}

theorem start_recorded (b : Buffer) : (start b).Recorded := fun _ _ _ h => nomatch h

/-- A read leaves the memory as it is. -/
theorem after_read (s : BufferRun) (c : BufferRead) :
    (c.run s.buffer).2.buf = s.buffer.buf ∧ (c.run s.buffer).2.capacity = s.buffer.capacity ∧
      (c.run s.buffer).2.growable = s.buffer.growable := by
  have hgives := c.gives s.buffer
  cases hwin : c.window s.buffer with
  | none =>
    rw [hwin] at hgives
    obtain ⟨e, he⟩ := hgives
    rw [he]
    exact ⟨rfl, rfl, rfl⟩
  | some win =>
    rw [hwin] at hgives
    obtain ⟨-, pos, h, hrun, -⟩ := hgives
    rw [hrun]
    exact ⟨rfl, rfl, rfl⟩

theorem after_seek (b : Buffer) (pos : Int64) :
    (Buffer.seek pos b).2.buf = b.buf ∧ (Buffer.seek pos b).2.capacity = b.capacity ∧
      (Buffer.seek pos b).2.growable = b.growable := by
  rw [Buffer.seek, Fallible.get_bind]
  split
  · exact ⟨rfl, rfl, rfl⟩
  · exact ⟨rfl, rfl, rfl⟩

theorem after_push (s : BufferRun) {c : PushCall} {b' : Buffer} {raw : List UInt8}
    (hraw : c.pushed s.buffer.vi64 = some raw) (hrun : c.run heap s.buffer = (.ok (), b')) :
    BufferRun.mk (s.after heap (.push c)) (s.record heap (.push c)) =
      ⟨b', copyIn s.written s.buffer.pos (raw.map some)⟩ := by
  rw [after, record, hrun, hraw]

theorem after_raise (s : BufferRun) {c : PushCall} {b' : Buffer} {e : BufferRaise}
    (hrun : c.run heap s.buffer = (.error e, b')) :
    BufferRun.mk (s.after heap (.push c)) (s.record heap (.push c)) = ⟨b', s.written⟩ := by
  rw [after, record, hrun]

/-- A push and its record. -/
theorem Recorded.pushed (h : s.Recorded) {b' : Buffer} {raw : List UInt8}
    (hpushed : s.buffer.Pushed b' raw) :
    Recorded ⟨b', copyIn s.written s.buffer.pos (raw.map some)⟩ := by
  intro hg i v hw
  have hle := b'.pos_le
  rw [hpushed.pos] at hle
  by_cases hin : ∃ j < raw.length, i = s.buffer.pos + j
  · obtain ⟨j, hj, rfl⟩ := hin
    have hput : copyIn s.written s.buffer.pos (raw.map some) (s.buffer.pos + j) =
        (raw.map some).get ⟨j, by simpa⟩ :=
      Circular.copyIn_at _
    dsimp only at hw
    rw [hput, List.get_eq_getElem, List.getElem_map] at hw
    exact ⟨by dsimp only; omega, (hpushed.at_pos hj).trans (Option.some.inj hw)⟩
  · have hout : ∀ j < (raw.map some).length, i ≠ s.buffer.pos + j := by
      rw [List.length_map]
      exact fun j hj heq => hin ⟨j, hj, heq⟩
    have hold := h (hpushed.growable ▸ hg) i v ((Circular.copyIn_ne hout).symm.trans hw)
    refine ⟨hold.1.trans_le hpushed.capacity, (hpushed.frame i ?_).trans hold.2⟩
    by_contra hwindow
    exact hin ⟨i - s.buffer.pos, by omega, by omega⟩

/-- A step keeps the record right. -/
theorem step_recorded (h : s.Recorded) (hstep : s.step call = some s') : s'.Recorded := by
  obtain ⟨heap, c⟩ := call
  cases hstep
  have hsame : ∀ b' : Buffer, b'.buf = s.buffer.buf ∧ b'.capacity = s.buffer.capacity ∧
      b'.growable = s.buffer.growable → (BufferRun.mk b' s.written).Recorded := by
    rintro b' ⟨hbuf, hcap, hgrow⟩ hg i v hw
    have hold := h (hgrow ▸ hg) i v hw
    exact ⟨hcap ▸ hold.1, hbuf ▸ hold.2⟩
  cases c with
  | read c => exact hsame _ (s.after_read c)
  | seek pos => exact hsame _ (after_seek s.buffer pos)
  | setVi64 value => exact hsame _ ⟨rfl, rfl, rfl⟩
  | push c =>
    rcases c.run_outcome heap s.buffer with ⟨b', raw, hraw, hrun, hpushed, -⟩ | ⟨e, b', hrun, hkept⟩
    · rw [s.after_push hraw hrun]
      exact h.pushed hpushed
    · rw [s.after_raise hrun]
      intro hg i v hw
      have hold := h (hkept.growable ▸ hg) i v hw
      exact ⟨hold.1.trans_le hkept.capacity, (congrFun hkept.buf i).trans hold.2⟩

/-! ## The law -/

/-- A read gives pushed bytes exactly if all that it reads was pushed. -/
theorem readsPushed_iff (h : s.Recorded) (hg : s.buffer.growable = true) :
    s.ReadsPushed call ↔ ∀ c start n, call.2 = .read c → c.window s.buffer = some (start, n) →
      ∀ i < n, (s.written (start + i)).isSome := by
  constructor
  · intro hreads c start n hc hwin i hi
    have hgives := c.gives s.buffer
    rw [hwin] at hgives
    obtain ⟨-, pos, hle, hrun, hcovers⟩ := hgives
    obtain ⟨raw, hraw, -⟩ := hreads c _ _ hc hrun
    dsimp only at hcovers
    rw [hcovers] at hraw
    have hget := congrArg (·[i]?) hraw
    simp only [copyOut, List.getElem?_map, List.getElem?_range hi, Option.map_some] at hget
    cases hi' : raw[i]? with
    | none => simp [hi'] at hget
    | some v =>
      rw [hi'] at hget
      rw [Option.some.inj hget]
      rfl
  · intro hall c v b' hc hrun
    have hgives := c.gives s.buffer
    cases hwin : c.window s.buffer with
    | none =>
      rw [hwin] at hgives
      obtain ⟨e, he⟩ := hgives
      rw [he] at hrun
      cases hrun
    | some win =>
      obtain ⟨start, n⟩ := win
      rw [hwin] at hgives
      obtain ⟨-, pos, hle, hrun', hcovers⟩ := hgives
      rw [hrun'] at hrun
      obtain ⟨hv, rfl⟩ := Prod.mk.inj hrun
      refine ⟨copyOut s.buffer.buf start n, ?_, (Except.ok.inj hv).symm⟩
      dsimp only at hcovers
      rw [hcovers]
      simp only [copyOut, List.map_map]
      refine List.map_congr_left fun i hi => ?_
      obtain ⟨byte, hbyte⟩ := Option.isSome_iff_exists.1
        (hall c start n hc hwin i (List.mem_range.1 hi))
      rw [hbyte, Function.comp_apply, (h hg _ _ hbyte).2]

/-- Data is kept exactly if nothing is pushed with `push_bytes` where there is room for it. -/
theorem keepsData_iff (hg : s.buffer.growable = false) :
    s.KeepsData call ↔
      ∀ data, call.2 = .push (.bytes data) → data ≠ [] → s.buffer.capacity < s.buffer.pos +
      data.length := by
  obtain ⟨heap, c⟩ := call
  constructor
  · rintro ⟨-, -, hraises⟩ data hc hne
    by_contra hfull
    obtain ⟨b', hrun, -⟩ := @Buffer.pushBytes_of_le _ heap _ hne (not_lt.1 hfull)
    cases hc
    obtain ⟨⟨e, he⟩, -⟩ := hraises hne
    have hok : (PushCall.run heap (.bytes data) s.buffer).1 = .ok () := congrArg Prod.fst hrun
    rw [hok] at he
    cases he
  · intro hfull
    have hsame : ∀ b' : Buffer, b'.buf = s.buffer.buf ∧ b'.capacity = s.buffer.capacity ∧
        b'.growable = s.buffer.growable →
        (∀ i < s.buffer.capacity, b'.buf i = s.buffer.buf i) ∧ b'.capacity = s.buffer.capacity :=
      fun b' h => ⟨fun i _ => congrFun h.1 i, h.2.1⟩
    cases c with
    | read c =>
      obtain ⟨hbuf, hcap⟩ := hsame _ (s.after_read c)
      exact ⟨hbuf, hcap, False.elim⟩
    | seek pos =>
      obtain ⟨hbuf, hcap⟩ := hsame _ (after_seek s.buffer pos)
      exact ⟨hbuf, hcap, False.elim⟩
    | setVi64 value => exact ⟨fun _ _ => rfl, rfl, False.elim⟩
    | push c =>
      rcases c.run_outcome heap s.buffer with ⟨b', raw, -, hrun, -, hmay⟩ | ⟨e, b', hrun, hkept⟩
      · rcases hmay with hgrow | ⟨data, rfl, hle⟩
        · rw [hg] at hgrow
          cases hgrow
        · have hnil : data = [] := by
            by_contra hne
            have := hfull data rfl hne
            omega
          subst hnil
          have hafter : s.after heap (.push (.bytes [])) = s.buffer := by
            show (Buffer.pushBytes heap [] s.buffer).2 = s.buffer
            rw [Buffer.pushBytes, Fallible.get_bind, if_pos rfl]
            rfl
          rw [KeepsData, hafter]
          exact ⟨fun _ _ => rfl, rfl, fun hpush => absurd rfl hpush⟩
      · have hafter : s.after heap (.push c) = b' := congrArg Prod.snd hrun
        rw [KeepsData, hafter]
        exact ⟨fun i _ => congrFun hkept.buf i, hkept.fixed hg,
          fun _ => ⟨⟨e, congrArg Prod.fst hrun⟩, hkept.pos⟩⟩

theorem integrity_iff_careful (h : s.Recorded) : s.Integrity call ↔ s.Careful call := by
  obtain ⟨heap, c⟩ := call
  rw [Integrity, Careful]
  split
  · rename_i hg
    exact readsPushed_iff h hg
  · rename_i hg
    exact keepsData_iff (by simpa using hg)

/-- A new buffer that was made from data holds it, and is not there to be written. -/
theorem create_data {heap : Heap} {found : ℕ → UInt8} {capacity : Option ℤ}
    {data : Option (List UInt8)}
    {vi64 : Bool} {b : Buffer} (h : Buffer.create heap found capacity data vi64 = .ok b) :
    b.growable = data.isNone ∧ ∀ d, data = some d → copyOut b.buf 0 b.capacity = d := by
  cases data with
  | some d =>
    by_cases hmem : heap.has (if 0 < d.length then d.length else 1) = true
    · rw [Buffer.create, dif_pos hmem] at h
      cases h
      refine ⟨rfl, fun d' hd => ?_⟩
      cases hd
      show copyOut (copyIn found 0 d) 0 d.length = d
      exact Circular.copyOut_copyIn
    · rw [Buffer.create, dif_neg hmem] at h
      cases h
  | none =>
    refine ⟨?_, nofun⟩
    by_cases hsize : ¬ (-2 ^ 63 ≤ capacity.getD 1024 ∧ capacity.getD 1024 < 2 ^ 63)
    · rw [Buffer.create, if_pos hsize] at h
      cases h
    · by_cases hmem : heap.has
        (if capacity.getD 1024 ≤ 0 then 1024 else (capacity.getD 1024).toNat) = true
      · rw [Buffer.create, if_neg hsize, dif_pos hmem] at h
        cases h
        rfl
      · rw [Buffer.create, if_neg hsize, dif_neg hmem] at h
        cases h

/-- In every run of calls on a buffer its contents keep their integrity exactly as far as the caller
is careful: `create` makes buffers of both kinds. -/
theorem integrity_iff (b : Buffer) (calls : List (Heap × BufferCall)) :
    (∀ heap found capacity data vi64, Buffer.create heap found capacity data vi64 = .ok b →
      b.growable = data.isNone ∧ ∀ d, data = some d → copyOut b.buf 0 b.capacity = d) ∧
    (Steps.Along step Integrity (start b) calls ↔ Steps.Along step Careful (start b) calls) :=
  ⟨fun _ _ _ _ _ h => create_data h,
    Steps.along_congr (fun _ _ _ h _ hstep => step_recorded h hstep)
      (fun _ _ h => integrity_iff_careful h)
      (start_recorded b)⟩

/-- An allocator with a megabyte. -/
def megabyte : Heap := ⟨fun n => n ≤ 2 ^ 20, fun n h => by
  have hle : n ≤ 2 ^ 20 := by simpa using h
  omega⟩

/-- `Buffer(data=b"abc").push_bytes(b"x")` returns and overwrites the first byte, and
`Buffer(capacity=8).pull_uint8()` returns what the memory held before. -/
theorem integrity_broken :
    (∃ b, Buffer.create megabyte (fun _ => 0) none (some [97, 98, 99]) false = .ok b ∧
      (Buffer.pushBytes megabyte [120] b).1 = .ok () ∧ b.buf 0 = 97 ∧
      (Buffer.pushBytes megabyte [120] b).2.buf 0 = 120 ∧
      ¬ Steps.Along step Integrity (start b) [(megabyte, .push (.bytes [120]))]) ∧
    ∃ b, Buffer.create megabyte (fun _ => 7) (some 8) none false = .ok b ∧
    (Buffer.pullUint8 b).1 = .ok 7 ∧
      ¬ Steps.Along step Integrity (start b) [(megabyte, .read .uint8)] := by
  refine ⟨⟨_, rfl, rfl, rfl, rfl, fun h => ?_⟩, ⟨_, rfl, rfl, fun h => ?_⟩⟩
  · obtain ⟨⟨e, he⟩, -⟩ := h.1.2.2 (List.cons_ne_nil _ _)
    cases he
  · obtain ⟨raw, hraw, -⟩ := h.1 .uint8 _ _ rfl rfl
    have hhead := congrArg List.head? hraw
    cases raw with
    | nil => cases hhead
    | cons byte rest => cases hhead

end BufferRun

end Aiopquic
