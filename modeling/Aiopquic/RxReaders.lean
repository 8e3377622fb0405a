import Aiopquic.Lib.Steps
import Mathlib.Logic.Function.Basic
import Mathlib.Data.Nat.Notation

/-!
# Who reads the RX events of a transport (`_rxwatch.py`)

The loop has one reader for an fd number. `set_reader` registers an owner's callback for the eventfd
of a transport, `clear_reader` removes it for the owner, and a timer calls the callback when a wake
was lost. Three tables say who owns what: `_watches` has a watch for each transport, `_by_fd` the
watch whose reader has an fd number, and the loop its readers. A transport may die without
`clear_reader`: its watch is then gone from `_watches`, but `_by_fd` and the loop still have it when
the number comes back with another transport.

`reader_owned` says of every run of calls, deaths and ticks when each state is as it should be
(`Owned`) and each `clear_reader` by someone else is without effect (`Ignored`).
-/

namespace Aiopquic

/-- A reader in the table of the loop. `transport` is history. -/
structure RxReader where
  transport : ℕ
  callback : ℕ
  deriving DecidableEq, Repr

/-- `_Watch`, without what only the reports use. `timer` tells that `handle` is not `None`. -/
structure Watch where
  transport : ℕ := 0
  fd : ℕ := 0
  ownerId : Option ℕ := none
  callback : Option ℕ := none
  timer : Bool := false
  clears : Option ℕ := none
  waiting : ℕ := 0
  rescues : ℕ := 0
  deriving DecidableEq, Repr

namespace Watch

def schedule (w : Watch) : Watch := { w with timer := true }

def cancel (w : Watch) : Watch := { w with timer := false }

/-- The end of `clear_reader`. -/
def release (w : Watch) : Watch := { w with ownerId := none, callback := none }.cancel

/-- The test of `tick` for events that no drain has taken. -/
def waited (w : Watch) (count clears : ℕ) : Watch :=
  { w with
    waiting := if count ≠ 0 ∧ w.clears = some clears then w.waiting + 1 else 0
    clears := some clears }

/-- Two watches differ at most in what `tick` changes. -/
structure Same (v v' : Watch) : Prop where
  transport : v'.transport = v.transport
  fd : v'.fd = v.fd
  ownerId : v'.ownerId = v.ownerId
  callback : v'.callback = v.callback

theorem Same.rfl {v : Watch} : v.Same v := ⟨.refl _, .refl _, .refl _, .refl _⟩

end Watch

/-- What the calls say about the reader of a transport: nobody has set one, the one that was set
last and its owner, or that this owner has cleared it since. -/
inductive ReaderTold
  | never
  | held (owner callback : ℕ)
  | cleared
  deriving DecidableEq, Repr

namespace ReaderTold

/-- After a `clear_reader`. -/
def clear (told : ReaderTold) (o : ℕ) : ReaderTold :=
  match told with
  | .held owner callback => if owner = o then .cleared else .held owner callback
  | told => told

end ReaderTold

/-- The tables. `usedBy` is the live transport with an fd number, `eventfd` the number of each
transport, and `ticking` the watch whose `tick` has called the callback. An owner is known by its
identity, which lasts as long as the watch keeps its callback. `told` is history. -/
structure RxReaders where
  eventfd : ℕ → ℕ := fun _ => 0
  usedBy : ℕ → Option ℕ := fun _ => none
  transports : ℕ := 0
  watches : ℕ → Option ℕ := fun _ => none
  byFd : ℕ → Option ℕ := fun _ => none
  watch : ℕ → Watch := fun _ => {}
  watchCount : ℕ := 0
  readers : ℕ → Option RxReader := fun _ => none
  ticking : Option ℕ := none
  told : ℕ → ReaderTold := fun _ => .never

/-- A transport is created, or dies; the calls; the timer of a watch fires and `tick` finds `count`
events, the counter `clears` and whether the fd is readable; the callback that `tick` has called
returns or raises. -/
inductive ReaderAct
  | create (fd : ℕ)
  | die (t : ℕ)
  | setReader (t callback owner : ℕ)
  | clearReader (t owner : ℕ)
  | tick (w count clears : ℕ) (readable : Bool)
  | endTick (raised : Bool)
  deriving DecidableEq, Repr

namespace RxReaders

variable (s : RxReaders)

def Alive (t : ℕ) : Prop := s.usedBy (s.eventfd t) = some t

instance (t : ℕ) : Decidable (s.Alive t) := inferInstanceAs (Decidable (_ = _))

def setWatch (w : ℕ) (f : Watch → Watch) : RxReaders :=
  { s with watch := Function.update s.watch w (f (s.watch w)) }

/-- `loop.add_reader`, which takes the place of the reader before. -/
def addReader (fd : ℕ) (r : RxReader) : RxReaders :=
  { s with readers := Function.update s.readers fd (some r) }

/-- `loop.remove_reader`. -/
def removeReader (fd : ℕ) : RxReaders := { s with readers := Function.update s.readers fd none }

/-- The watch of a transport, which is made if there is none. -/
def watchOf (t : ℕ) : ℕ × RxReaders :=
  match s.watches t with
  | some w => (w, s)
  | none =>
    (s.watchCount,
      { s with
        watches := Function.update s.watches t (some s.watchCount)
        watch := Function.update s.watch s.watchCount { transport := t, fd := s.eventfd t }
        watchCount := s.watchCount + 1 })

/-- The reader of a transport that has gone gives up the fd number. -/
def dropPrevious (w : ℕ) : RxReaders :=
  match s.byFd (s.watch w).fd with
  | some previous => if previous = w then s else (s.setWatch previous .cancel).removeReader
      (s.watch w).fd
  | none => s

/-- `set_reader`. -/
def setReader (t callback owner : ℕ) : RxReaders :=
  let (w, s) := s.watchOf t
  let s := (s.dropPrevious w).addReader (s.eventfd t) ⟨t, callback⟩
  let s := { s with byFd := Function.update s.byFd (s.watch w).fd (some w) }
  s.setWatch w fun watch => { watch with ownerId := some owner, callback := some callback }.schedule

/-- `clear_reader`. -/
def clearReader (t owner : ℕ) : RxReaders :=
  match s.watches t with
  | none => s.removeReader (s.eventfd t)
  | some w =>
    if (s.watch w).ownerId ≠ none ∧ (s.watch w).ownerId ≠ some owner then s
    else
      let s :=
        if s.byFd (s.watch w).fd = some w then
          { s.removeReader (s.watch w).fd with byFd := Function.update s.byFd (s.watch w).fd none }
        else s
      s.setWatch w .release

/-- `rescue`, up to the call of the callback. -/
def rescue (w callback : ℕ) (readable : Bool) : RxReaders :=
  let s := s.setWatch w fun watch => { watch with rescues := watch.rescues + 1 }
  let r : RxReader := ⟨(s.watch w).transport, callback⟩
  if s.readers (s.watch w).fd = none then s.addReader (s.watch w).fd r
  else if readable then (s.removeReader (s.watch w).fd).addReader (s.watch w).fd r
  else s

/-- `tick`, up to the call of the callback if there is one. -/
def tick (w count clears : ℕ) (readable : Bool) : RxReaders :=
  let s := s.setWatch w .cancel
  match (s.watch w).callback with
  | none => s
  | some callback =>
    if ¬ s.Alive (s.watch w).transport then s
    else
      let s := s.setWatch w fun watch => watch.waited count clears
      if 2 ≤ (s.watch w).waiting then
        let s := s.setWatch w fun watch => { watch with waiting := 0 }
        { s.rescue w callback readable with ticking := some w }
      else s.setWatch w .schedule

/-- `tick`, after the callback. -/
def endTick (w : ℕ) (raised : Bool) : RxReaders :=
  let s := { s with ticking := none }
  if raised then s else s.setWatch w .schedule

/-- A step. A transport does not die while its `tick` runs, and the loop runs one callback at a
time. -/
def step : ReaderAct → Option RxReaders
  | .create fd =>
    if s.usedBy fd = none then some
      { s with
        eventfd := Function.update s.eventfd s.transports fd
        usedBy := Function.update s.usedBy fd (some s.transports)
        transports := s.transports + 1 }
    else none
  | .die t =>
    if s.Alive t ∧ ∀ w ∈ s.ticking, (s.watch w).transport ≠ t then some
      { s with
        usedBy := Function.update s.usedBy (s.eventfd t) none
        watches := Function.update s.watches t none }
    else none
  | .setReader t callback owner =>
    if s.Alive t then some
      { s.setReader t callback owner with told := Function.update s.told t (.held owner callback) }
    else none
  | .clearReader t owner =>
    if s.Alive t then some
      { s.clearReader t owner with told := Function.update s.told t ((s.told t).clear owner) }
    else none
  | .tick w count clears readable =>
    if s.ticking = none ∧ w < s.watchCount ∧ (s.watch w).timer
      then some (s.tick w count clears readable) else none
  | .endTick raised => s.ticking.map fun w => s.endTick w raised

/-- The loop has the right reader for each live transport. Once an owner has cleared the reader it
held, the loop has no reader of the transport, and no timer of it runs. -/
structure Owned : Prop where
  registered : ∀ t owner callback, s.Alive t → s.told t = .held owner callback →
    s.readers (s.eventfd t) = some ⟨t, callback⟩
  removed : ∀ t, s.told t = .cleared → ∀ fd, ∀ r ∈ s.readers fd, r.transport ≠ t
  cancelled : ∀ t, s.told t = .cleared → ∀ w < s.watchCount, (s.watch w).transport = t →
    (s.watch w).timer = false

/-- A `clear_reader` by someone who does not hold the reader changes no registration. -/
def Ignored (act : ReaderAct) : Prop :=
  ∀ t owner, act = .clearReader t owner → (∀ callback, s.told t ≠ .held owner callback) →
    ∀ s' ∈ s.step act, s'.readers = s.readers

/-- The step goes right: it leads to a state as it should be, and changes nothing where it should
not. -/
def Proper (act : ReaderAct) : Prop := (∀ s' ∈ s.step act, s'.Owned) ∧ s.Ignored act

/-- No `clear_reader` for a transport that never had a reader, while the loop still has that of a
dead one under the same fd number; and no callback that `tick` calls leaves the reader of its
transport cleared and returns. -/
def Spared : ReaderAct → Prop
  | .clearReader t _ => s.Alive t → s.told t = .never → s.readers (s.eventfd t) = none
  | .endTick raised => ∀ w ∈ s.ticking, raised = true ∨ s.told (s.watch w).transport ≠ .cleared
  | _ => True

/-! ## The tables agree -/

/-- The tables agree with what the calls say about the reader of a transport. -/
structure Right (t : ℕ) : Prop where
  never : s.Alive t → s.watches t = none → s.told t = .never
  asked : ∀ w, s.watches t = some w → s.told t ≠ .never
  held : ∀ w owner callback, s.watches t = some w → s.told t = .held owner callback →
    (s.watch w).ownerId = some owner ∧ (s.watch w).callback = some callback ∧
      s.byFd (s.eventfd t) = some w ∧
      s.readers (s.eventfd t) = some ⟨t, callback⟩
  cleared : ∀ w, s.watches t = some w → s.told t = .cleared →
    (s.watch w).ownerId = none ∧ (s.watch w).callback = none ∧ s.byFd (s.eventfd t) ≠ some w

/-- Between two steps. -/
structure Inv : Prop where
  used : ∀ fd t, s.usedBy fd = some t → s.eventfd t = fd ∧ t < s.transports
  fresh : ∀ t, s.transports ≤ t → s.told t = .never ∧ s.watches t = none
  watches : ∀ t w, s.watches t = some w → w < s.watchCount ∧ (s.watch w).transport = t ∧ s.Alive t
  watch : ∀ w < s.watchCount, (s.watch w).fd = s.eventfd (s.watch w).transport ∧
    (s.watch w).transport < s.transports
  current : ∀ w < s.watchCount, s.Alive (s.watch w).transport → s.watches (s.watch w).transport =
    some w
  byFd : ∀ fd w, s.byFd fd = some w → w < s.watchCount ∧ (s.watch w).fd = fd ∧
    ∃ owner callback, s.told (s.watch w).transport = .held owner callback
  readers : ∀ fd r, s.readers fd = some r → ∃ w, s.byFd fd = some w ∧ (s.watch w).transport =
    r.transport
  right : ∀ t, s.Right t
  ticking : ∀ w ∈ s.ticking, w < s.watchCount

theorem init_inv : Inv {} := by
  constructor
  · exact fun _ _ h => nomatch h
  · exact fun _ _ => ⟨rfl, rfl⟩
  · exact fun _ _ h => nomatch h
  · exact fun _ h => absurd h (Nat.not_lt_zero _)
  · exact fun _ h => absurd h (Nat.not_lt_zero _)
  · exact fun _ _ h => nomatch h
  · exact fun _ _ h => nomatch h
  · intro t
    constructor
    · exact fun _ _ => rfl
    · exact fun _ h => nomatch h
    · exact fun _ _ _ h => nomatch h
    · exact fun _ h => nomatch h
  · exact fun _ h => nomatch h

variable {s s' : RxReaders} {t u w fd callback owner : ℕ}

/-- Two live transports have two fd numbers. -/
theorem Alive.eq_of_eventfd (h : s.Alive t) (h' : s.Alive u) (hfd : s.eventfd t = s.eventfd u) :
    t = u := by
  unfold Alive at h h'
  rw [hfd, h', Option.some.injEq] at h
  exact h.symm

/-- A step that does not touch what is at a transport, its watch and its fd number. -/
theorem Right.congr (h : s.Right t) (hwatches : s'.watches t = s.watches t)
    (htold : s'.told t = s.told t)
    (halive : s'.Alive t → s.Alive t) (hself : ∀ w, s.watches t = some w →
      (s'.watch w).ownerId = (s.watch w).ownerId ∧ (s'.watch w).callback = (s.watch w).callback ∧
        s'.byFd (s'.eventfd t) = s.byFd (s.eventfd t) ∧ s'.readers (s'.eventfd t) =
        s.readers (s.eventfd t)) :
    s'.Right t := by
  constructor
  · intro ht hw
    rw [htold]
    exact h.never (halive ht) (hwatches ▸ hw)
  · intro w hw
    rw [htold]
    exact h.asked w (hwatches ▸ hw)
  · intro w owner callback hw ht
    rw [hwatches] at hw
    obtain ⟨howner, hcallback, hbyFd, hreaders⟩ := hself w hw
    rw [howner, hcallback, hbyFd, hreaders]
    exact h.held w owner callback hw (htold ▸ ht)
  · intro w hw ht
    rw [hwatches] at hw
    obtain ⟨howner, hcallback, hbyFd, -⟩ := hself w hw
    rw [howner, hcallback, hbyFd]
    exact h.cleared w hw (htold ▸ ht)

/-- The registrations are right, whatever the timers do. -/
theorem Inv.registered (h : s.Inv) (ht : s.Alive t) (htold : s.told t = .held owner callback) :
    s.readers (s.eventfd t) = some ⟨t, callback⟩ := by
  cases hw : s.watches t with
  | none =>
    have hnever := (h.right t).never ht hw
    rw [htold] at hnever
    cases hnever
  | some w => exact ((h.right t).held w owner callback hw htold).2.2.2

/-- Whoever has another fd number is another transport. -/
theorem Inv.transport_ne (h : s.Inv) (hw : s.byFd fd = some w) (hfd : fd ≠ s.eventfd t) :
    (s.watch w).transport ≠ t := by
  rintro rfl
  obtain ⟨hlt, hfd', -⟩ := h.byFd fd w hw
  rw [← (h.watch w hlt).1, hfd'] at hfd
  exact hfd rfl

theorem Inv.removed (h : s.Inv) (ht : s.told t = .cleared) (r : RxReader)
    (hr : s.readers fd = some r) :
    r.transport ≠ t := by
  rintro rfl
  obtain ⟨w, hw, htransport⟩ := h.readers fd r hr
  obtain ⟨-, -, owner, callback, hheld⟩ := h.byFd fd w hw
  rw [htransport, ht] at hheld
  cases hheld

theorem Inv.owned_iff (h : s.Inv) : s.Owned ↔
    ∀ t, s.told t = .cleared → ∀ w < s.watchCount, (s.watch w).transport = t →
      (s.watch w).timer = false := by
  constructor
  · exact fun ho => ho.cancelled
  · exact fun hcancelled =>
      ⟨fun _ _ _ => h.registered, fun _ ht _ r hr => h.removed ht r hr, hcancelled⟩

/-! ### `set_reader` -/

theorem dropPrevious_spec (s : RxReaders) (w : ℕ) : ∃ watch readers,
    s.dropPrevious w = { s with watch := watch, readers := readers } ∧ watch w = s.watch w ∧
      (∀ v, watch v = s.watch v ∨ watch v = (s.watch v).cancel) ∧
      ∀ fd ≠ (s.watch w).fd, readers fd = s.readers fd := by
  unfold dropPrevious
  split
  · rename_i previous hprevious
    split
    · exact ⟨s.watch, s.readers, rfl, rfl, fun _ => .inl rfl, fun _ _ => rfl⟩
    · rename_i hne
      refine ⟨Function.update s.watch previous (s.watch previous).cancel,
        Function.update s.readers (s.watch w).fd none, rfl, Function.update_of_ne (Ne.symm hne) ..,
          fun v => ?_,
        fun fd hfd => Function.update_of_ne hfd ..⟩
      by_cases hv : v = previous
      · subst hv
        exact .inr (Function.update_self ..)
      · exact .inl (Function.update_of_ne hv ..)
  · exact ⟨s.watch, s.readers, rfl, rfl, fun _ => .inl rfl, fun _ _ => rfl⟩

/-- What `set_reader` does to the tables: `w` is the watch of the transport afterwards. -/
structure SetTo (s : RxReaders) (t callback owner w : ℕ) (s' : RxReaders) : Prop where
  eventfd : s'.eventfd = s.eventfd
  usedBy : s'.usedBy = s.usedBy
  transports : s'.transports = s.transports
  ticking : s'.ticking = s.ticking
  told : s'.told = s.told
  watches : s'.watches = Function.update s.watches t (some w)
  byFd : s'.byFd = Function.update s.byFd (s.eventfd t) (some w)
  count : s.watches t = some w ∧ s'.watchCount = s.watchCount ∨
    s.watches t = none ∧ w = s.watchCount ∧ s'.watchCount = s.watchCount + 1
  watch : s'.watch w = { s'.watch w with
    transport := t
    fd := s.eventfd t
    ownerId := some owner
    callback := some callback }
  others : ∀ v ≠ w, s'.watch v = s.watch v ∨ s'.watch v = (s.watch v).cancel
  reader : s'.readers (s.eventfd t) = some ⟨t, callback⟩
  readers : ∀ fd ≠ s.eventfd t, s'.readers fd = s.readers fd

theorem Inv.watchOf_spec (h : s.Inv) (t : ℕ) : ∃ w watch n,
    s.watchOf t = (w, { s with
      watches := Function.update s.watches t (some w)
      watch := watch
      watchCount := n }) ∧
      (s.watches t = some w ∧ n = s.watchCount ∨ s.watches t = none ∧ w = s.watchCount ∧
        n = s.watchCount + 1) ∧
      (watch w).transport = t ∧ (watch w).fd = s.eventfd t ∧ ∀ v ≠ w, watch v = s.watch v := by
  unfold watchOf
  cases hw : s.watches t with
  | none =>
    refine ⟨s.watchCount, _, _, rfl, .inr ⟨rfl, rfl, rfl⟩, ?_, ?_, fun v hv =>
      Function.update_of_ne hv ..⟩
    · simp
    · simp
  | some w =>
    obtain ⟨hlt, htransport, -⟩ := h.watches t w hw
    have hsame : Function.update s.watches t (some w) =
      s.watches := by rw [← hw, Function.update_eq_self]
    refine ⟨w, s.watch,
      s.watchCount, by rw [hsame], .inl ⟨rfl, rfl⟩, htransport, ?_, fun _ _ => rfl⟩
    rw [(h.watch w hlt).1, htransport]

theorem Inv.setTo (h : s.Inv) (t callback owner : ℕ) :
    ∃ w, SetTo s t callback owner w (s.setReader t callback owner) := by
  obtain ⟨w, watch, n, hwatchOf, hcount, htransport, hfd, hothers⟩ := h.watchOf_spec t
  obtain ⟨watch', readers, hdrop, hself, hcancel, hreaders⟩ := dropPrevious_spec
    { s with
      watches := Function.update s.watches t (some w)
      watch := watch
      watchCount := n } w
  refine ⟨w, ?_⟩
  unfold RxReaders.setReader
  rw [hwatchOf]
  dsimp only
  rw [hdrop]
  dsimp only at hself hcancel hreaders
  have hfd' : (watch' w).fd = s.eventfd t := by rw [hself, hfd]
  constructor
  · rfl
  · rfl
  · rfl
  · rfl
  · rfl
  · rfl
  · simp [setWatch, addReader, hfd']
  · exact hcount
  · simp [setWatch, addReader, Watch.schedule, hself, htransport, hfd]
  · intro v hv
    have hv' : watch v = s.watch v := hothers v hv
    simpa [setWatch, addReader, hv, hv'] using hcancel v
  · simp [setWatch, addReader]
  · intro fd hne
    rw [← hfd] at hne
    simpa [setWatch, addReader, ← hfd, hne] using hreaders fd hne

namespace SetTo

variable (hs : SetTo s t callback owner w s')

theorem lt (h : s.Inv) (hs : SetTo s t callback owner w s') : w < s'.watchCount := by
  obtain ⟨hw, hn⟩ | ⟨-, hw, hn⟩ := hs.count
  · rw [hn]
    exact (h.watches t w hw).1
  · omega

theorem le (hs : SetTo s t callback owner w s') : s.watchCount ≤ s'.watchCount := by
  obtain ⟨-, hn⟩ | ⟨-, -, hn⟩ := hs.count
  · omega
  · omega

theorem old (hs : SetTo s t callback owner w s') {v : ℕ} (hv : v < s'.watchCount) (hne : v ≠ w) :
    v < s.watchCount := by
  obtain ⟨-, hn⟩ | ⟨-, hw, hn⟩ := hs.count
  · rwa [hn] at hv
  · omega

/-- The watch of another transport is another watch. -/
theorem ne (h : s.Inv) (hs : SetTo s t callback owner w s') {v : ℕ} (hv : v < s.watchCount)
    (hne : (s.watch v).transport ≠ t) : v ≠ w := by
  rintro rfl
  obtain ⟨hw, -⟩ | ⟨-, hw, -⟩ := hs.count
  · exact hne (h.watches t v hw).2.1
  · omega

/-- No other watch is of the transport, as long as it lives. -/
theorem transport_ne (h : s.Inv) (ht : s.Alive t) (hs : SetTo s t callback owner w s') {v : ℕ}
    (hv : v < s.watchCount)
    (hne : v ≠ w) : (s.watch v).transport ≠ t := by
  intro htransport
  have hcurrent := h.current v hv (htransport.symm ▸ ht)
  rw [htransport] at hcurrent
  obtain ⟨hw, -⟩ | ⟨hw, -⟩ := hs.count
  · rw [hw, Option.some.injEq] at hcurrent
    exact hne hcurrent.symm
  · rw [hw] at hcurrent
    cases hcurrent

theorem same (hs : SetTo s t callback owner w s') {v : ℕ} (hne : v ≠ w) :
    (s'.watch v).transport = (s.watch v).transport ∧ (s'.watch v).fd = (s.watch v).fd ∧
      (s'.watch v).ownerId = (s.watch v).ownerId ∧ (s'.watch v).callback =
      (s.watch v).callback := by
  obtain hv | hv := hs.others v hne
  · rw [hv]
    exact ⟨rfl, rfl, rfl, rfl⟩
  · rw [hv]
    exact ⟨rfl, rfl, rfl, rfl⟩

theorem self (hs : SetTo s t callback owner w s') :
    (s'.watch w).transport = t ∧ (s'.watch w).fd = s.eventfd t ∧ (s'.watch w).ownerId = some owner ∧
      (s'.watch w).callback = some callback := by
  rw [hs.watch]
  exact ⟨rfl, rfl, rfl, rfl⟩

theorem alive_iff (hs : SetTo s t callback owner w s') : s'.Alive u ↔ s.Alive u := by
  unfold Alive
  rw [hs.usedBy, hs.eventfd]

theorem inv (h : s.Inv) (ht : s.Alive t) (hs : SetTo s t callback owner w s') :
    Inv { s' with told := Function.update s.told t (.held owner callback) } := by
  have htold : ∀ {u}, u ≠ t → Function.update s.told t (.held owner callback) u =
    s.told u := fun hu =>
    Function.update_of_ne hu ..
  obtain ⟨htransport, hfd, howner, hcallback⟩ := hs.self
  constructor
  · intro fd u hu
    have hu' : s.usedBy fd = some u := hs.usedBy ▸ hu
    show s'.eventfd u = fd ∧ u < s'.transports
    rw [hs.eventfd, hs.transports]
    exact h.used fd u hu'
  · intro u hu
    have hu' : s.transports ≤ u := hs.transports ▸ hu
    have hne : u ≠ t := by
      rintro rfl
      exact absurd (h.used _ _ ht).2 (by omega)
    show Function.update s.told t (.held owner callback) u = .never ∧ s'.watches u = none
    rw [htold hne, hs.watches, Function.update_of_ne hne]
    exact h.fresh u hu'
  · intro u v hv
    have hv' : Function.update s.watches t (some w) u = some v := hs.watches ▸ hv
    show v < s'.watchCount ∧ (s'.watch v).transport = u ∧ s'.Alive u
    rw [hs.alive_iff]
    by_cases hu : u = t
    · subst hu
      rw [Function.update_self, Option.some.injEq] at hv'
      subst hv'
      exact ⟨hs.lt h, htransport, ht⟩
    · rw [Function.update_of_ne hu] at hv'
      obtain ⟨hlt, hv₁, halive⟩ := h.watches u v hv'
      have hsame := (hs.same (hs.ne h hlt (by rwa [hv₁]))).1
      exact ⟨Nat.lt_of_lt_of_le hlt hs.le, by rw [hsame, hv₁], halive⟩
  · intro v hv
    show (s'.watch v).fd = s'.eventfd (s'.watch v).transport ∧ (s'.watch v).transport <
      s'.transports
    rw [hs.eventfd, hs.transports]
    by_cases hvw : v = w
    · subst hvw
      rw [htransport, hfd]
      exact ⟨rfl, (h.used _ _ ht).2⟩
    · obtain ⟨hv₁, hv₂, -⟩ := hs.same hvw
      rw [hv₁, hv₂]
      exact h.watch v (hs.old hv hvw)
  · intro v hv halive
    have halive' : s.Alive (s'.watch v).transport := hs.alive_iff.1 halive
    show s'.watches (s'.watch v).transport = some v
    rw [hs.watches]
    by_cases hvw : v = w
    · subst hvw
      rw [htransport, Function.update_self]
    · rw [(hs.same hvw).1] at halive' ⊢
      have hold := hs.old hv hvw
      rw [Function.update_of_ne (hs.transport_ne h ht hold hvw)]
      exact h.current v hold halive'
  · intro fd v hv
    have hv' : Function.update s.byFd (s.eventfd t) (some w) fd = some v := hs.byFd ▸ hv
    show v < s'.watchCount ∧ (s'.watch v).fd = fd ∧
      ∃ o c, Function.update s.told t (.held owner callback) (s'.watch v).transport = .held o c
    by_cases hfd' : fd = s.eventfd t
    · subst hfd'
      rw [Function.update_self, Option.some.injEq] at hv'
      subst hv'
      exact ⟨hs.lt h, hfd, owner, callback, by rw [htransport, Function.update_self]⟩
    · rw [Function.update_of_ne hfd'] at hv'
      obtain ⟨hlt, hv₁, hheld⟩ := h.byFd fd v hv'
      have htransport_ne := h.transport_ne hv' hfd'
      obtain ⟨hv₂, hv₃, -⟩ := hs.same (hs.ne h hlt htransport_ne)
      rw [hv₂, hv₃, htold htransport_ne]
      exact ⟨Nat.lt_of_lt_of_le hlt hs.le, hv₁, hheld⟩
  · intro fd r hr
    show ∃ v, s'.byFd fd = some v ∧ (s'.watch v).transport = r.transport
    rw [hs.byFd]
    by_cases hfd' : fd = s.eventfd t
    · subst hfd'
      have hr' : s'.readers (s.eventfd t) = some r := hr
      rw [hs.reader, Option.some.injEq] at hr'
      subst hr'
      exact ⟨w, Function.update_self .., htransport⟩
    · have hr' : s'.readers fd = some r := hr
      rw [hs.readers fd hfd'] at hr'
      obtain ⟨v, hv, hv₁⟩ := h.readers fd r hr'
      refine ⟨v, by rw [Function.update_of_ne hfd', hv], ?_⟩
      rw [(hs.same (hs.ne h (h.byFd fd v hv).1 (h.transport_ne hv hfd'))).1, hv₁]
  · intro u
    by_cases hu : u = t
    · subst hu
      have hw : s'.watches u = some w := by rw [hs.watches, Function.update_self]
      have hu : Function.update s.told u (.held owner callback) u = .held owner callback :=
        Function.update_self ..
      constructor
      · exact fun _ hnone => absurd (hw.symm.trans hnone) (by simp)
      · exact fun _ _ hnever => absurd (hu.symm.trans hnever) (by simp)
      · intro v o c hv hheld
        obtain rfl : w = v := Option.some.inj (hw.symm.trans hv)
        obtain ⟨rfl, rfl⟩ := ReaderTold.held.inj (hu.symm.trans hheld)
        refine ⟨howner, hcallback, ?_, ?_⟩
        · show s'.byFd (s'.eventfd u) = some w
          rw [hs.byFd, hs.eventfd, Function.update_self]
        · show s'.readers (s'.eventfd u) = some ⟨u, callback⟩
          rw [hs.eventfd, hs.reader]
      · exact fun _ _ hcleared => absurd (hu.symm.trans hcleared) (by simp)
    · refine (h.right u).congr ?_ (htold hu) hs.alive_iff.1 fun v hv => ?_
      · show s'.watches u = s.watches u
        rw [hs.watches, Function.update_of_ne hu]
      · obtain ⟨hlt, hv₁, halive⟩ := h.watches u v hv
        have hfd_ne : s.eventfd u ≠ s.eventfd t := fun hfd => hu (halive.eq_of_eventfd ht hfd)
        obtain ⟨-, -, hv₂, hv₃⟩ := hs.same (hs.ne h hlt (by rwa [hv₁]))
        refine ⟨hv₂, hv₃, ?_, ?_⟩
        · show s'.byFd (s'.eventfd u) = s.byFd (s.eventfd u)
          rw [hs.byFd, hs.eventfd, Function.update_of_ne hfd_ne]
        · show s'.readers (s'.eventfd u) = s.readers (s.eventfd u)
          rw [hs.eventfd, hs.readers _ hfd_ne]
  · intro v hv
    have hv' : v ∈ s.ticking := hs.ticking ▸ hv
    exact Nat.lt_of_lt_of_le (h.ticking v hv') hs.le

end SetTo

/-! ### Transports come and go -/

theorem right_of_never (htold : s.told t = .never) (hwatches : s.watches t = none) : s.Right t := by
  constructor
  · exact fun _ _ => htold
  · exact fun w hw => absurd (hwatches.symm.trans hw) (by simp)
  · exact fun w _ _ hw => absurd (hwatches.symm.trans hw) (by simp)
  · exact fun w hw => absurd (hwatches.symm.trans hw) (by simp)

theorem Inv.create (h : s.Inv) (hfree : s.usedBy fd = none) :
    Inv { s with
      eventfd := Function.update s.eventfd s.transports fd
      usedBy := Function.update s.usedBy fd (some s.transports)
      transports := s.transports + 1 } := by
  have heventfd : ∀ {u}, u < s.transports → Function.update s.eventfd s.transports fd u =
    s.eventfd u := fun hu =>
    Function.update_of_ne (by omega) ..
  have hkeeps : ∀ {u}, u < s.transports → (Alive { s with
      eventfd := Function.update s.eventfd s.transports fd
      usedBy := Function.update s.usedBy fd (some s.transports)
      transports := s.transports + 1 } u ↔ s.Alive u) := by
    intro u hu
    unfold Alive
    dsimp only
    rw [heventfd hu]
    by_cases hfd : s.eventfd u = fd
    · rw [hfd, Function.update_self, hfree]
      simp [show s.transports ≠ u by omega]
    · rw [Function.update_of_ne hfd]
  constructor
  · intro f u hu
    dsimp only at hu ⊢
    by_cases hf : f = fd
    · subst hf
      rw [Function.update_self, Option.some.injEq] at hu
      subst hu
      exact ⟨Function.update_self .., Nat.lt_succ_self _⟩
    · rw [Function.update_of_ne hf] at hu
      obtain ⟨hu₁, hu₂⟩ := h.used f u hu
      exact ⟨by rw [heventfd hu₂, hu₁], Nat.lt_succ_of_lt hu₂⟩
  · exact fun u hu => h.fresh u (Nat.le_of_succ_le hu)
  · intro u w hw
    obtain ⟨hlt, htransport, halive⟩ := h.watches u w hw
    exact ⟨hlt, htransport, (hkeeps (h.used _ _ halive).2).2 halive⟩
  · intro w hw
    obtain ⟨hfd, hlt⟩ := h.watch w hw
    exact ⟨hfd.trans (heventfd hlt).symm, Nat.lt_succ_of_lt hlt⟩
  · exact fun w hw halive => h.current w hw ((hkeeps (h.watch w hw).2).1 halive)
  · exact h.byFd
  · exact h.readers
  · intro u
    by_cases hu : u < s.transports
    · refine (h.right u).congr rfl rfl (hkeeps hu).1 fun w _ => ⟨rfl, rfl, ?_, ?_⟩
      · exact congrArg s.byFd (heventfd hu)
      · exact congrArg s.readers (heventfd hu)
    · obtain ⟨htold, hwatches⟩ := h.fresh u (Nat.le_of_not_lt hu)
      exact right_of_never htold hwatches
  · exact h.ticking

theorem Inv.die (h : s.Inv) (ht : s.Alive t) :
    Inv { s with
      usedBy := Function.update s.usedBy (s.eventfd t) none
      watches := Function.update s.watches t none } := by
  have halive : ∀ {u}, (Alive { s with
      usedBy := Function.update s.usedBy (s.eventfd t) none
      watches := Function.update s.watches t none } u ↔ s.Alive u ∧ u ≠ t) := by
    intro u
    unfold Alive
    dsimp only
    by_cases hfd : s.eventfd u = s.eventfd t
    · rw [hfd, Function.update_self, ht]
      simp [eq_comm]
    · rw [Function.update_of_ne hfd]
      have hne : u ≠ t := fun hu => hfd (congrArg s.eventfd hu)
      simp [hne]
  constructor
  · intro f u hu
    dsimp only at hu ⊢
    by_cases hf : f = s.eventfd t
    · subst hf
      rw [Function.update_self] at hu
      cases hu
    · rw [Function.update_of_ne hf] at hu
      exact h.used f u hu
  · intro u hu
    obtain ⟨htold, hwatches⟩ := h.fresh u hu
    refine ⟨htold, ?_⟩
    dsimp only
    by_cases hut : u = t
    · rw [hut, Function.update_self]
    · rw [Function.update_of_ne hut, hwatches]
  · intro u w hw
    dsimp only at hw
    by_cases hut : u = t
    · subst hut
      rw [Function.update_self] at hw
      cases hw
    · rw [Function.update_of_ne hut] at hw
      obtain ⟨hlt, htransport, hu⟩ := h.watches u w hw
      exact ⟨hlt, htransport, halive.2 ⟨hu, hut⟩⟩
  · exact h.watch
  · intro w hw hu
    obtain ⟨hu, hne⟩ := halive.1 hu
    dsimp only
    rw [Function.update_of_ne hne]
    exact h.current w hw hu
  · exact h.byFd
  · exact h.readers
  · intro u
    by_cases hut : u = t
    · subst hut
      constructor
      · exact fun hu => absurd rfl (halive.1 hu).2
      · exact fun w hw => absurd ((Function.update_self ..).symm.trans hw) (by simp)
      · exact fun w _ _ hw => absurd ((Function.update_self ..).symm.trans hw) (by simp)
      · exact fun w hw => absurd ((Function.update_self ..).symm.trans hw) (by simp)
    · exact (h.right u).congr (Function.update_of_ne hut ..) rfl (fun hu => (halive.1 hu).1)
        fun _ _ =>
        ⟨rfl, rfl, rfl, rfl⟩
  · exact h.ticking

/-! ### `clear_reader` -/

/-- A stale reader goes. -/
theorem Inv.removeReader (h : s.Inv) (ht : s.Alive t) (hwatches : s.watches t = none) :
    Inv (s.removeReader (s.eventfd t)) := by
  constructor
  · exact h.used
  · exact h.fresh
  · exact h.watches
  · exact h.watch
  · exact h.current
  · exact h.byFd
  · intro fd r hr
    by_cases hfd : fd = s.eventfd t
    · subst hfd
      exact absurd ((Function.update_self ..).symm.trans hr) (by simp)
    · exact h.readers fd r ((Function.update_of_ne hfd ..).symm.trans hr)
  · intro u
    refine (h.right u).congr rfl rfl id fun w hw => ⟨rfl, rfl, rfl, ?_⟩
    have hut : u ≠ t := by
      rintro rfl
      rw [hwatches] at hw
      cases hw
    exact Function.update_of_ne (fun hfd => hut ((h.watches u w hw).2.2.eq_of_eventfd ht hfd)) ..
  · exact h.ticking

/-- The owner clears its reader. -/
theorem Inv.clear (h : s.Inv) (hw : s.watches t = some w) (htold : s.told t = .held owner callback)
    (watch : Watch)
    (htransport : watch.transport = t) (hfd : watch.fd = s.eventfd t)
    (howner : watch.ownerId = none)
    (hcallback : watch.callback = none) :
    Inv { s with
      readers := Function.update s.readers (s.eventfd t) none
      byFd := Function.update s.byFd (s.eventfd t) none
      watch := Function.update s.watch w watch
      told := Function.update s.told t .cleared } := by
  obtain ⟨hlt, hw₁, halive⟩ := h.watches t w hw
  have hwatch : ∀ v, (Function.update s.watch w watch v).transport = (s.watch v).transport ∧
      (Function.update s.watch w watch v).fd = (s.watch v).fd := by
    intro v
    by_cases hv : v = w
    · subst hv
      rw [Function.update_self, htransport, hfd, (h.watch v hlt).1, hw₁]
      exact ⟨rfl, rfl⟩
    · rw [Function.update_of_ne hv]
      exact ⟨rfl, rfl⟩
  constructor
  · exact h.used
  · intro u hu
    have hut : u ≠ t := by
      rintro rfl
      exact absurd (h.used _ _ halive).2 (Nat.not_lt.2 hu)
    exact ⟨(Function.update_of_ne hut ..).trans (h.fresh u hu).1, (h.fresh u hu).2⟩
  · intro u v hv
    obtain ⟨hv₁, hv₂, hv₃⟩ := h.watches u v hv
    exact ⟨hv₁, (hwatch v).1.trans hv₂, hv₃⟩
  · intro v hv
    dsimp only
    rw [(hwatch v).1, (hwatch v).2]
    exact h.watch v hv
  · intro v hv hu
    dsimp only at hu ⊢
    rw [(hwatch v).1] at hu ⊢
    exact h.current v hv hu
  · intro fd v hv
    dsimp only at hv ⊢
    by_cases hfd' : fd = s.eventfd t
    · rw [hfd', Function.update_self] at hv
      cases hv
    · rw [Function.update_of_ne hfd'] at hv
      rw [(hwatch v).1, (hwatch v).2, Function.update_of_ne (h.transport_ne hv hfd')]
      exact h.byFd fd v hv
  · intro fd r hr
    dsimp only at hr ⊢
    by_cases hfd' : fd = s.eventfd t
    · rw [hfd', Function.update_self] at hr
      cases hr
    · rw [Function.update_of_ne hfd'] at hr ⊢
      obtain ⟨v, hv, hv₁⟩ := h.readers fd r hr
      exact ⟨v, hv, (hwatch v).1.trans hv₁⟩
  · intro u
    by_cases hut : u = t
    · subst hut
      have hcleared : Function.update s.told u .cleared u = .cleared := Function.update_self ..
      constructor
      · exact fun _ hnone => absurd (hw.symm.trans hnone) (by simp)
      · exact fun _ _ hnever => absurd (hcleared.symm.trans hnever) (by simp)
      · exact fun _ _ _ _ hheld => absurd (hcleared.symm.trans hheld) (by simp)
      · intro v hv _
        obtain rfl : w = v := Option.some.inj (hw.symm.trans hv)
        simp [howner, hcallback]
    · refine (h.right u).congr rfl (Function.update_of_ne hut ..) id fun v hv => ?_
      obtain ⟨-, hv₁, hu⟩ := h.watches u v hv
      have hvw : v ≠ w := fun hvw => hut (by rw [← hv₁, hvw, hw₁])
      have hfd_ne : s.eventfd u ≠ s.eventfd t := fun hfd' => hut (hu.eq_of_eventfd halive hfd')
      simp [hvw, hfd_ne]
  · exact h.ticking

/-! ### Timers -/

theorem Inv.retime (h : s.Inv) {watch : ℕ → Watch} {ticking : Option ℕ}
    (hsame : ∀ v, (s.watch v).Same (watch v))
    (hticking : ∀ v ∈ ticking, v < s.watchCount) :
    Inv { s with
      watch := watch
      ticking := ticking } := by
  constructor
  · exact h.used
  · exact h.fresh
  · intro u v hv
    obtain ⟨hlt, htransport, halive⟩ := h.watches u v hv
    exact ⟨hlt, (hsame v).transport.trans htransport, halive⟩
  · intro v hv
    dsimp only
    rw [(hsame v).transport, (hsame v).fd]
    exact h.watch v hv
  · intro v hv hu
    dsimp only at hu ⊢
    rw [(hsame v).transport] at hu ⊢
    exact h.current v hv hu
  · intro fd v hv
    dsimp only
    rw [(hsame v).transport, (hsame v).fd]
    exact h.byFd fd v hv
  · intro fd r hr
    obtain ⟨v, hv, htransport⟩ := h.readers fd r hr
    exact ⟨v, hv, (hsame v).transport.trans htransport⟩
  · exact fun u => (h.right u).congr rfl rfl id fun v _ =>
      ⟨(hsame v).ownerId, (hsame v).callback, rfl, rfl⟩
  · exact hticking

@[simp] theorem setWatch_self (s : RxReaders) (w : ℕ) (f : Watch → Watch) :
    (s.setWatch w f).watch w = f (s.watch w) :=
  Function.update_self ..

@[simp] theorem setWatch_setWatch (s : RxReaders) (w : ℕ) (f g : Watch → Watch) :
    (s.setWatch w f).setWatch w g = s.setWatch w (g ∘ f) := by
  simp [setWatch]

@[simp] theorem setWatch_readers (s : RxReaders) (w : ℕ) (f : Watch → Watch) :
    (s.setWatch w f).readers = s.readers := rfl

/-- A rescue finds the reader it would add. -/
theorem rescue_eq (hreader : s.readers (s.watch w).fd = some ⟨(s.watch w).transport, callback⟩)
    (readable : Bool) :
    s.rescue w callback readable = s.setWatch w fun watch =>
    { watch with rescues := watch.rescues + 1 } := by
  unfold rescue
  dsimp only
  rw [setWatch_self, setWatch_readers, if_neg (by simp [hreader])]
  split
  · simp only [addReader, RxReaders.removeReader, setWatch_readers, Function.update_idem]
    rw [← hreader, Function.update_eq_self]
    rfl
  · rfl

/-- The watch of a live transport that has a callback: the reader is held, and the loop has it. -/
theorem Inv.held_of_callback (h : s.Inv) (hw : w < s.watchCount)
    (halive : s.Alive (s.watch w).transport)
    (hcallback : (s.watch w).callback = some callback) :
    s.told (s.watch w).transport ≠ .cleared ∧
      s.readers (s.watch w).fd = some ⟨(s.watch w).transport, callback⟩ := by
  have hwatches := h.current w hw halive
  have hright := h.right (s.watch w).transport
  cases htold : s.told (s.watch w).transport with
  | never => exact absurd htold (hright.asked w hwatches)
  | cleared =>
    have hnone := (hright.cleared w hwatches htold).2.1
    rw [hcallback] at hnone
    cases hnone
  | held owner c =>
    obtain ⟨-, hc, -, hreader⟩ := hright.held w owner c hwatches htold
    obtain rfl : callback = c := Option.some.inj (hcallback.symm.trans hc)
    rw [(h.watch w hw).1]
    exact ⟨by simp, hreader⟩

/-- A tick changes only its watch. With its owner gone, the watch runs no timer any more. -/
theorem Inv.tick_spec (h : s.Inv) (hw : w < s.watchCount) (hticking : s.ticking = none)
    (count clears : ℕ)
    (readable : Bool) : ∃ watch ticking,
      s.tick w count clears readable =
        { s with
          watch := Function.update s.watch w watch
          ticking := ticking } ∧
        (s.watch w).Same watch ∧ (∀ v ∈ ticking, v = w) ∧
        (s.told (s.watch w).transport = .cleared → watch.timer = false) := by
  have hself : (s.setWatch w .cancel).watch w = (s.watch w).cancel := setWatch_self ..
  have hcallback_eq : ((s.setWatch w .cancel).watch w).callback = (s.watch w).callback := by
    rw [hself, Watch.cancel]
  unfold tick
  dsimp only
  rw [hcallback_eq]
  cases hcallback : (s.watch w).callback with
  | none =>
    exact ⟨(s.watch w).cancel, s.ticking, rfl,
      ⟨rfl, rfl, rfl, rfl⟩, by simp [hticking], fun _ => rfl⟩
  | some callback =>
    dsimp only
    split
    · exact ⟨(s.watch w).cancel, s.ticking, rfl,
        ⟨rfl, rfl, rfl, rfl⟩, by simp [hticking], fun _ => rfl⟩
    · rename_i halive
      have halive' : s.Alive (s.watch w).transport := by
        rw [hself] at halive
        exact not_not.1 halive
      obtain ⟨hheld, hreader⟩ := h.held_of_callback hw halive' hcallback
      simp only [setWatch_setWatch, setWatch_self, Function.comp_apply]
      split
      · rw [rescue_eq (by simpa [Watch.waited, Watch.cancel] using hreader), setWatch_setWatch]
        exact ⟨_, some w, rfl, ⟨rfl, rfl, rfl, rfl⟩, by simp, fun hcleared => absurd hcleared hheld⟩
      · exact ⟨_, s.ticking, rfl,
          ⟨rfl, rfl, rfl, rfl⟩, by simp [hticking], fun hcleared => absurd hcleared hheld⟩

/-! ## One step -/

/-- `clear_reader`, with what it says about the reader. -/
def afterClear (s : RxReaders) (t owner : ℕ) : RxReaders :=
  { s.clearReader t owner with told := Function.update s.told t ((s.told t).clear owner) }

theorem Inv.afterClear_never (h : s.Inv) (htold : s.told t = .never) (owner : ℕ) :
    s.watches t = none ∧ s.afterClear t owner = s.removeReader (s.eventfd t) := by
  have hwatches : s.watches t = none := by
    cases hw : s.watches t with
    | none => rfl
    | some w => exact absurd htold ((h.right t).asked w hw)
  refine ⟨hwatches, ?_⟩
  have hsame : Function.update s.told t ((s.told t).clear owner) = s.told := by
    have hclear : (s.told t).clear owner = s.told t := by
      rw [htold]
      rfl
    rw [hclear, Function.update_eq_self]
  unfold afterClear clearReader
  rw [hsame, hwatches]
  rfl

theorem Inv.watches_of_told (h : s.Inv) (ht : s.Alive t) (htold : s.told t ≠ .never) :
    ∃ w, s.watches t = some w := by
  cases hw : s.watches t with
  | none => exact absurd ((h.right t).never ht hw) htold
  | some w => exact ⟨w, rfl⟩

theorem Inv.afterClear_other (h : s.Inv) (ht : s.Alive t) {other : ℕ}
    (htold : s.told t = .held other callback)
    (hne : other ≠ owner) : s.afterClear t owner = s := by
  obtain ⟨w, hw⟩ := h.watches_of_told ht (by simp [htold])
  have howner := ((h.right t).held w other callback hw htold).1
  have hsame : Function.update s.told t ((s.told t).clear owner) = s.told := by
    rw [htold, ReaderTold.clear, if_neg hne, ← htold, Function.update_eq_self]
  unfold afterClear clearReader
  rw [hsame, hw]
  dsimp only
  rw [if_pos ⟨by simp [howner], by simp [howner, hne]⟩]

theorem Inv.afterClear_owner (h : s.Inv) (ht : s.Alive t)
    (htold : s.told t = .held owner callback) :
    ∃ w, s.watches t = some w ∧ s.afterClear t owner =
      { s with
        readers := Function.update s.readers (s.eventfd t) none
        byFd := Function.update s.byFd (s.eventfd t) none
        watch := Function.update s.watch w (s.watch w).release
        told := Function.update s.told t .cleared } := by
  obtain ⟨w, hw⟩ := h.watches_of_told ht (by simp [htold])
  obtain ⟨howner, -, hbyFd, -⟩ := (h.right t).held w owner callback hw htold
  obtain ⟨hlt, htransport, -⟩ := h.watches t w hw
  have hfd : (s.watch w).fd = s.eventfd t := by rw [(h.watch w hlt).1, htransport]
  have hclear : (s.told t).clear owner = .cleared := by rw [htold, ReaderTold.clear, if_pos rfl]
  refine ⟨w, hw, ?_⟩
  unfold afterClear clearReader
  rw [hclear, hw]
  dsimp only
  rw [if_neg (by simp [howner]), hfd, if_pos hbyFd]
  rfl

theorem Inv.afterClear_cleared (h : s.Inv) (ht : s.Alive t) (htold : s.told t = .cleared)
    (owner : ℕ) :
    ∃ w, s.watches t = some w ∧ s.afterClear t owner =
      { s with watch := Function.update s.watch w (s.watch w).release } := by
  obtain ⟨w, hw⟩ := h.watches_of_told ht (by simp [htold])
  obtain ⟨howner, -, hbyFd⟩ := (h.right t).cleared w hw htold
  obtain ⟨hlt, htransport, -⟩ := h.watches t w hw
  have hfd : (s.watch w).fd = s.eventfd t := by rw [(h.watch w hlt).1, htransport]
  have hsame : Function.update s.told t ((s.told t).clear owner) = s.told := by
    have hclear : (s.told t).clear owner = s.told t := by
      rw [htold]
      rfl
    rw [hclear, Function.update_eq_self]
  refine ⟨w, hw, ?_⟩
  unfold afterClear clearReader
  rw [hsame, hw]
  dsimp only
  rw [if_neg (by simp [howner]), hfd, if_neg hbyFd]
  rfl

theorem Inv.clear_step (h : s.Inv) (ht : s.Alive t) (owner : ℕ) : (s.afterClear t owner).Inv := by
  cases htold : s.told t with
  | never =>
    obtain ⟨hwatches, heq⟩ := h.afterClear_never htold owner
    rw [heq]
    exact h.removeReader ht hwatches
  | held other callback =>
    by_cases howner : other = owner
    · subst howner
      obtain ⟨w, hw, heq⟩ := h.afterClear_owner ht htold
      obtain ⟨hlt, htransport, -⟩ := h.watches t w hw
      rw [heq]
      exact h.clear hw htold _ htransport (by rw [← htransport, ← (h.watch w hlt).1]; rfl) rfl rfl
    · rw [h.afterClear_other ht htold howner]
      exact h
  | cleared =>
    obtain ⟨w, hw, heq⟩ := h.afterClear_cleared ht htold owner
    obtain ⟨howner, hcallback, -⟩ := (h.right t).cleared w hw htold
    rw [heq]
    refine h.retime (fun v => ?_) h.ticking
    by_cases hv : v = w
    · subst hv
      rw [Function.update_self]
      exact ⟨rfl, rfl, howner.symm, hcallback.symm⟩
    · rw [Function.update_of_ne hv]
      exact .rfl

theorem of_guard {p : Prop} [Decidable p] {a b : RxReaders}
    (h : (if p then some a else none) = some b) : p ∧ b = a := by
  obtain ⟨hp, hab⟩ := Option.ite_none_right_eq_some.1 h
  exact ⟨hp, (Option.some.inj hab).symm⟩

theorem Inv.step {act : ReaderAct} (h : s.Inv) (hstep : s.step act = some s') : s'.Inv := by
  cases act with
  | create fd =>
    obtain ⟨hfree, rfl⟩ := of_guard hstep
    exact h.create hfree
  | die t =>
    obtain ⟨⟨ht, -⟩, rfl⟩ := of_guard hstep
    exact h.die ht
  | setReader t callback owner =>
    obtain ⟨ht, rfl⟩ := of_guard hstep
    obtain ⟨w, hw⟩ := h.setTo t callback owner
    exact hw.inv h ht
  | clearReader t owner =>
    obtain ⟨ht, rfl⟩ := of_guard hstep
    exact h.clear_step ht owner
  | tick w count clears readable =>
    obtain ⟨⟨hticking, hw, -⟩, rfl⟩ := of_guard hstep
    obtain ⟨watch, ticking, heq, hsame, hlt, -⟩ := h.tick_spec hw hticking count clears readable
    rw [heq]
    refine h.retime (fun v => ?_) fun v hv => hlt v hv ▸ hw
    by_cases hv : v = w
    · subst hv
      rwa [Function.update_self]
    · rw [Function.update_of_ne hv]
      exact .rfl
  | endTick raised =>
    obtain ⟨w, hw, rfl⟩ := Option.map_eq_some_iff.1 hstep
    have hnone : Inv { s with ticking := none } := h.retime (fun _ => .rfl) (by simp)
    unfold endTick
    dsimp only
    split
    · exact hnone
    · refine hnone.retime (fun v => ?_) (by simp)
      by_cases hv : v = w
      · subst hv
        rw [Function.update_self]
        exact ⟨rfl, rfl, rfl, rfl⟩
      · rw [Function.update_of_ne hv]
        exact .rfl

/-! ### The timers -/

/-- A step that leaves the timers of the cleared transports as they were, or cancels them. -/
theorem Owned.of_timers (h : s.Owned) (h' : s'.Inv)
    (hcleared : ∀ t, s'.told t = .cleared → s.told t = .cleared)
    (hwatch : ∀ w < s'.watchCount, s'.told (s'.watch w).transport = .cleared →
    (s'.watch w).timer = true →
      w < s.watchCount ∧ (s'.watch w).transport = (s.watch w).transport ∧ (s.watch w).timer =
      true) : s'.Owned := by
  refine h'.owned_iff.2 fun t ht w hw htransport => ?_
  by_contra htimer
  obtain ⟨hlt, hsame, hold⟩ := hwatch w hw (htransport ▸ ht) (by simpa using htimer)
  have hcancelled := h.cancelled t (hcleared t ht) w hlt (by rw [← hsame, htransport])
  rw [hold] at hcancelled
  cases hcancelled

theorem Owned.set (h : s.Owned) (h' : s.Inv) (ht : s.Alive t) (hs : SetTo s t callback owner w s') :
    Owned { s' with told := Function.update s.told t (.held owner callback) } := by
  refine h.of_timers (hs.inv h' ht) (fun u hu => ?_) fun v hv hcleared htimer => ?_
  · dsimp only at hu
    by_cases hut : u = t
    · rw [hut, Function.update_self] at hu
      cases hu
    · rwa [Function.update_of_ne hut] at hu
  · dsimp only at hv hcleared htimer ⊢
    have hvw : v ≠ w := by
      rintro rfl
      rw [hs.self.1, Function.update_self] at hcleared
      cases hcleared
    refine ⟨hs.old hv hvw, (hs.same hvw).1, ?_⟩
    obtain hsame | hcancel := hs.others v hvw
    · rwa [hsame] at htimer
    · rw [hcancel] at htimer
      cases htimer

theorem Owned.afterClear (h : s.Owned) (h' : s.Inv) (ht : s.Alive t) (owner : ℕ) :
    (s.afterClear t owner).Owned := by
  have hinv := h'.clear_step ht owner
  cases htold : s.told t with
  | never =>
    obtain ⟨-, heq⟩ := h'.afterClear_never htold owner
    rw [heq] at hinv ⊢
    exact h.of_timers hinv (fun _ hu => hu) fun v hv _ htimer => ⟨hv, rfl, htimer⟩
  | held other callback =>
    by_cases howner : other = owner
    · subst howner
      obtain ⟨w, hw, heq⟩ := h'.afterClear_owner ht htold
      obtain ⟨-, hw₁, -⟩ := h'.watches t w hw
      rw [heq] at hinv ⊢
      refine hinv.owned_iff.2 fun u hu v hv htransport => ?_
      dsimp only at hu hv htransport ⊢
      by_cases hvw : v = w
      · rw [hvw, Function.update_self]
        rfl
      · rw [Function.update_of_ne hvw] at htransport ⊢
        have hut : u ≠ t := by
          rintro rfl
          have hcurrent := h'.current v hv (htransport.symm ▸ ht)
          rw [htransport, hw, Option.some.injEq] at hcurrent
          exact hvw hcurrent.symm
        rw [Function.update_of_ne hut] at hu
        exact h.cancelled u hu v hv htransport
    · rw [h'.afterClear_other ht htold howner]
      exact h
  | cleared =>
    obtain ⟨w, -, heq⟩ := h'.afterClear_cleared ht htold owner
    rw [heq] at hinv ⊢
    refine h.of_timers hinv (fun _ hu => hu) fun v hv _ htimer => ?_
    dsimp only at hv htimer ⊢
    by_cases hvw : v = w
    · rw [hvw, Function.update_self] at htimer
      cases htimer
    · rw [Function.update_of_ne hvw] at htimer ⊢
      exact ⟨hv, rfl, htimer⟩

theorem Owned.tick (h : s.Owned) (h' : s.Inv) {act : ReaderAct} {count clears : ℕ} {readable : Bool}
    (hact : act = .tick w count clears readable) (hstep : s.step act = some s') : s'.Owned := by
  have hinv := h'.step hstep
  subst hact
  obtain ⟨⟨hticking, hw, -⟩, rfl⟩ := of_guard hstep
  obtain ⟨watch, ticking, heq, hsame, -, htimer⟩ := h'.tick_spec hw hticking count clears readable
  rw [heq] at hinv ⊢
  refine h.of_timers hinv (fun _ hu => hu) fun v hv hcleared hv' => ?_
  dsimp only at hv hcleared hv' ⊢
  by_cases hvw : v = w
  · subst hvw
    rw [Function.update_self] at hcleared hv'
    rw [hsame.transport] at hcleared
    rw [htimer hcleared] at hv'
    cases hv'
  · rw [Function.update_of_ne hvw] at hv' ⊢
    exact ⟨hv, rfl, hv'⟩

theorem step_endTick (hw : s.ticking = some w) (raised : Bool) :
    s.step (.endTick raised) = some (s.endTick w raised) := by
  unfold RxReaders.step
  rw [hw]
  rfl

/-- The end of a tick sets the timer again. -/
theorem Owned.endTick_iff (h : s.Owned) (h' : s.Inv) (hw : s.ticking = some w) (raised : Bool) :
    (s.endTick w raised).Owned ↔ raised = true ∨ s.told (s.watch w).transport ≠ .cleared := by
  have hinv := h'.step (step_endTick hw raised)
  have hlt := h'.ticking w hw
  cases raised with
  | true =>
    refine iff_of_true (h.of_timers hinv (fun _ hu => hu) fun v hv _ htimer => ⟨hv, rfl, htimer⟩)
      (.inl rfl)
  | false =>
    have hwatch : (s.endTick w false).watch = Function.update s.watch w (s.watch w).schedule := rfl
    rw [hinv.owned_iff]
    constructor
    · intro hcancelled
      refine .inr fun hcleared => ?_
      have htimer := hcancelled _ hcleared w hlt (by rw [hwatch, Function.update_self]; rfl)
      rw [hwatch, Function.update_self] at htimer
      cases htimer
    · rintro (hraised | hnot) u hu v hv htransport
      · cases hraised
      · rw [hwatch] at htransport ⊢
        by_cases hvw : v = w
        · subst hvw
          rw [Function.update_self] at htransport
          exact absurd (htransport ▸ hu) hnot
        · rw [Function.update_of_ne hvw] at htransport ⊢
          exact h.cancelled u hu v hv htransport

/-! ### Who is ignored -/

/-- The readers after a `clear_reader` by someone who does not hold the reader. -/
theorem Inv.readers_afterClear (h : s.Inv) (ht : s.Alive t)
    (hother : ∀ callback, s.told t ≠ .held owner callback) :
    (s.afterClear t owner).readers = s.readers ↔
    (s.told t = .never → s.readers (s.eventfd t) = none) := by
  cases htold : s.told t with
  | never =>
    obtain ⟨-, heq⟩ := h.afterClear_never htold owner
    rw [heq]
    constructor
    · intro hsame _
      rw [← hsame]
      exact Function.update_self ..
    · intro hnone
      exact Function.update_eq_self_iff.2 (hnone rfl).symm
  | held other callback =>
    have hne : other ≠ owner := by
      rintro rfl
      exact hother callback htold
    rw [h.afterClear_other ht htold hne]
    simp
  | cleared =>
    obtain ⟨w, -, heq⟩ := h.afterClear_cleared ht htold owner
    rw [heq]
    simp

theorem Inv.proper_iff (h : s.Inv) (ho : s.Owned) (act : ReaderAct) :
    s.Proper act ↔ s.Spared act := by
  have hplain : (∀ s' ∈ s.step act, s'.Owned) → (∀ t owner, act ≠ .clearReader t owner) →
    s.Proper act :=
    fun howned hact => ⟨howned, fun t owner heq => absurd heq (hact t owner)⟩
  cases act with
  | create fd =>
    refine iff_of_true (hplain (fun s' hs' => ?_) (by simp)) trivial
    have hinv := h.step hs'
    obtain ⟨-, rfl⟩ := of_guard hs'
    exact ho.of_timers hinv (fun _ hu => hu) fun v hv _ htimer => ⟨hv, rfl, htimer⟩
  | die t =>
    refine iff_of_true (hplain (fun s' hs' => ?_) (by simp)) trivial
    have hinv := h.step hs'
    obtain ⟨-, rfl⟩ := of_guard hs'
    exact ho.of_timers hinv (fun _ hu => hu) fun v hv _ htimer => ⟨hv, rfl, htimer⟩
  | setReader t callback owner =>
    refine iff_of_true (hplain (fun s' hs' => ?_) (by simp)) trivial
    obtain ⟨ht, rfl⟩ := of_guard hs'
    obtain ⟨w, hw⟩ := h.setTo t callback owner
    exact ho.set h ht hw
  | clearReader t owner =>
    have hstep : ∀ s', s.step (.clearReader t owner) = some s' →
      s.Alive t ∧ s' = s.afterClear t owner :=
      fun s' hs' => of_guard hs'
    constructor
    · rintro ⟨-, hignored⟩ ht hnever
      have hother : ∀ callback, s.told t ≠ .held owner callback := by simp [hnever]
      have hsame := hignored t owner rfl hother _ (if_pos ht)
      exact (h.readers_afterClear ht hother).1 hsame hnever
    · intro hspared
      refine ⟨fun s' hs' => ?_, fun u o heq hother s' hs' => ?_⟩
      · obtain ⟨ht, rfl⟩ := hstep s' hs'
        exact ho.afterClear h ht owner
      · obtain ⟨rfl, rfl⟩ := ReaderAct.clearReader.inj heq
        obtain ⟨ht, rfl⟩ := hstep s' hs'
        exact (h.readers_afterClear ht hother).2 (hspared ht)
  | tick w count clears readable =>
    exact iff_of_true (hplain (fun s' hs' => ho.tick h rfl hs') (by simp)) trivial
  | endTick raised =>
    constructor
    · rintro ⟨howned, -⟩ w hw
      exact (ho.endTick_iff h hw raised).1 (howned _ (step_endTick hw raised))
    · intro hspared
      refine hplain (fun s' hs' => ?_) (by simp)
      obtain ⟨w, hw, rfl⟩ := Option.map_eq_some_iff.1 hs'
      exact (ho.endTick_iff h hw raised).2 (hspared w hw)

/-! ## The theorem -/

theorem init_owned : Owned {} :=
  init_inv.owned_iff.2 fun _ ht => nomatch ht

/-- For every run of calls, deaths and ticks: every step goes right exactly if no `clear_reader`
finds the stale reader of a dead transport for one that never had a reader, and no tick sets the
timer of a reader that its own callback has cleared. -/
theorem reader_owned (acts : List ReaderAct) :
    Steps.Along step Proper {} acts ↔ Steps.Along step Spared {} acts := by
  apply Steps.along_congr (J := fun s => s.Inv ∧ s.Owned)
  · rintro s act s' ⟨h, ho⟩ hspared hstep
    exact ⟨h.step hstep, ((h.proper_iff ho act).2 hspared).1 s' hstep⟩
  · rintro s act ⟨h, ho⟩
    exact h.proper_iff ho act
  · exact ⟨init_inv, init_owned⟩

/-- A lost wake is rescued, and the callback has the owner clear its reader. -/
def clearedInTick : List ReaderAct :=
  [.create 5, .setReader 0 11 1, .tick 0 1 7 true, .tick 0 1 7 true, .tick 0 1 7 true,
    .clearReader 0 1, .endTick false]

/-- The timer runs although the owner has cleared the reader. -/
theorem clearedInTick_not_owned : ∃ s, Steps.run step {} clearedInTick = some s ∧ ¬ s.Owned := by
  have hkept : (Steps.run step {} clearedInTick).map
      (fun s => (s.told 0, s.watchCount, (s.watch 0).transport, (s.watch 0).timer)) =
        some (.cleared, 1, 0, true) := by
    decide +kernel
  obtain ⟨s, hs, hkept⟩ := Option.map_eq_some_iff.1 hkept
  obtain ⟨htold, hkept⟩ := Prod.mk.inj hkept
  obtain ⟨hcount, hkept⟩ := Prod.mk.inj hkept
  obtain ⟨htransport, htimer⟩ := Prod.mk.inj hkept
  refine ⟨s, hs, fun ho => ?_⟩
  have hcancelled := ho.cancelled 0 htold 0 (by omega) htransport
  rw [htimer] at hcancelled
  cases hcancelled

end RxReaders

end Aiopquic
