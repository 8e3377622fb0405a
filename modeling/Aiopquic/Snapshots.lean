import Aiopquic.Lib.Steps
import Aiopquic.SnapshotCache

/-!
# Snapshots and the end of their connection (`_transport.pyx`, `callback.h`)

The worker sends a snapshot of a connection with some of its events and in answer to a refresh. The
drains cache it under the address of the connection. An end event (`Ends`) notes the cached
snapshot, and the next drain cycle drops it, unless another object has taken its place by then.

`SnapRun` is the cache with the two rings and the connections that the worker lists: connections
come and go, an address is used again, the worker pushes events, a refresh is asked for and
answered, and the drains take entries, in any order. `Forgotten` says that the handlers of the drain
that sees the end still read the last snapshot, and that the next cycle leaves none.

The worker answers a refresh for as long as it lists the connection, also after its end event
(`lateAnswer`). `snapshots_forgotten` is about the runs without such events.
-/

namespace Aiopquic

open DrainCtx

/-! ## What the drains were told -/

/-- How far the end of a connection has come for the drains: not drained, drained in this cycle,
drained in an earlier one. -/
inductive CnxStage
  | live
  | closing
  | closed
  deriving DecidableEq, Repr

/-- The connection that the last entry drained for an address was of, its stage, and the last
snapshot that came from it. -/
structure CnxTold where
  cnx : ℕ
  stage : CnxStage := .live
  last : Option (List UInt8) := none
  deriving DecidableEq, Repr

namespace CnxTold

/-- What is known of the connection `i` before an entry of it is drained. -/
def known (told : Option CnxTold) (i : ℕ) : CnxTold :=
  match told with
  | some t => if t.cnx = i then t else { cnx := i }
  | none => { cnx := i }

/-- `n` is the size of a snapshot. -/
def drained (n : ℕ) (t : CnxTold) (e : Entry) : CnxTold :=
  { t with
    stage := if Ends e.eventType ∧ t.stage = .live then .closing else t.stage
    last := if SnapCache.Bears n e then some e.payload else t.last }

/-- A drain cycle begins. -/
def cycled (t : CnxTold) : CnxTold :=
  { t with stage := if t.stage = .closing then .closed else t.stage }

end CnxTold

/-! ## Runs -/

/-- The entries of the RX ring are kept with the connection they are of. `latest` counts the
connections that an address was given to last, `ended` tells of which an end event was pushed, and
`told` is history. -/
structure SnapRun where
  cache : SnapCache
  rx : List (Entry × ℕ) := []
  tx : List ℕ := []
  listed : ℕ → Bool := fun _ => false
  latest : ℕ → ℕ := fun _ => 0
  created : ℕ := 0
  ended : ℕ → Bool := fun _ => false
  told : ℕ → Option CnxTold := fun _ => none

/-- A connection is created at an address or freed, the worker pushes an event, an accessor asks for
a refresh (`refused` if there is no worker or the TX event ring is full), the worker takes a
refresh, a drain begins, a drain takes an entry. -/
inductive SnapAct
  | connect (a : ℕ)
  | delete (a : ℕ)
  | push (e : Entry)
  | postRefresh (a : ℕ) (refused : Bool)
  | answer (snap : List UInt8)
  | beginDrain
  | drainEntry

namespace SnapRun

def init (size : ℕ) : SnapRun := { cache := { size := size } }

variable (s : SnapRun)

/-- `aiopquic_rx_push`, for the connection that is or was last at the address. -/
def rxPush (e : Entry) : SnapRun :=
  { s with
    rx := s.rx ++ [(e, s.latest e.cnx)]
    ended := if Ends e.eventType then Function.update s.ended (s.latest e.cnx) true else s.ended }

/-- `_post_refresh`. -/
def postRefresh (a : ℕ) (refused : Bool) : SnapRun :=
  if refused ∨ a ∈ s.cache.posted then s
  else
    { s with
      tx := s.tx ++ [a]
      cache := { s.cache with posted := s.cache.posted ++ [a] } }

/-- `SPSC_EVT_CNX_SNAPSHOT`. -/
def cnxSnapshot (a : ℕ) (snap : List UInt8) : Entry := Entry.withData
    { eventType := .cnxSnapshot, cnx := a } snap

/-- `SPSC_EVT_TX_CNX_REFRESH` in `aiopquic_loop_cb`, behind the guard for connections that are
gone. -/
def answer (a : ℕ) (snap : List UInt8) : SnapRun :=
  if s.listed a then s.rxPush (cnxSnapshot a snap) else s

/-- An entry of the connection `i` is drained. -/
def drained (e : Entry) (i : ℕ) : SnapRun :=
  { s with
    cache := s.cache.entry e
    told := Function.update s.told e.cnx
      (some ((CnxTold.known (s.told e.cnx) i).drained s.cache.size e)) }

def step (s : SnapRun) : SnapAct → Option SnapRun
  | .connect a =>
    if s.listed a then none
    else some
      { s with
        listed := Function.update s.listed a true
        latest := Function.update s.latest a (s.created + 1)
        created := s.created + 1 }
  | .delete a => if s.listed a then some { s with listed := Function.update s.listed a false }
      else none
  | .push e => some (s.rxPush e)
  | .postRefresh a refused => some (s.postRefresh a refused)
  | .answer snap =>
    match s.tx with
    | [] => none
    | a :: tx => some (answer { s with tx := tx } a snap)
  | .beginDrain =>
    some
      { s with
        cache := s.cache.beginCycle
        told := fun a => (s.told a).map CnxTold.cycled }
  | .drainEntry =>
    match s.rx with
    | [] => none
    | (e, i) :: rx => some (drained { s with rx := rx } e i)

/-- The entry that the worker pushes in a step. -/
def pushes : SnapAct → Option Entry
  | .push e => some e
  | .answer snap => (s.tx.head?.filter (s.listed ·)).map (cnxSnapshot · snap)
  | _ => none

/-- No snapshot is pushed for a connection after its end event. -/
def NotAfterEnd (s : SnapRun) (act : SnapAct) : Prop :=
  ∀ e ∈ s.pushes act, SnapCache.Bears s.cache.size e → s.ended (s.latest e.cnx) = false

instance (s : SnapRun) (act : SnapAct) : Decidable (s.NotAfterEnd act) := inferInstanceAs
    (Decidable (∀ _ ∈ _, _))

/-- The last snapshot of a connection is there in the drain that sees its end, and none from the
next cycle on, until an entry of another connection at the address is drained. -/
def Forgotten (s : SnapRun) : Prop :=
  ∀ a, ∀ t ∈ s.told a,
    (t.stage = .closing → ∀ bytes ∈ t.last, (s.cache.snapshots a).map (·.bytes) = some bytes) ∧
      (t.stage = .closed → s.cache.snapshots a = none)

/-! ## The cache and what the drains were told -/

end SnapRun

/-- The numbers of the objects. -/
structure SnapCache.Fresh (c : SnapCache) : Prop where
  drops : ∀ d ∈ c.drops, d.2.object < c.objects
  cached : ∀ a, ∀ snap ∈ c.snapshots a, snap.object < c.objects

/-- What the cache holds for an address, at each stage of the connection that was drained for it
last. -/
structure CnxTold.Fits (c : SnapCache) (a : ℕ) (t : CnxTold) : Prop where
  last : t.stage ≠ .closed → ∀ bytes ∈ t.last, (c.snapshots a).map (·.bytes) = some bytes
  /-- What was noted for the connection that had the address before is not this one's snapshot. -/
  spared : t.stage = .live → t.last ≠ none → ¬ c.Drops c.drops a
  noted : t.stage = .closing → c.snapshots a ≠ none → c.Drops c.drops a
  gone : t.stage = .closed → c.snapshots a = none

namespace CnxTold

variable {c c' : SnapCache} {a i n : ℕ} {t : CnxTold} {e : Entry}

theorem Fits.congr (h : t.Fits c a) (hsnap : c'.snapshots a = c.snapshots a)
    (hdrops : c'.Drops c'.drops a ↔ c.Drops c.drops a) : t.Fits c' a where
  last := by
    rw [hsnap]
    exact h.last
  spared := by
    rw [hdrops]
    exact h.spared
  noted := by
    rw [hsnap, hdrops]
    exact h.noted
  gone := by
    rw [hsnap]
    exact h.gone

/-- Of a connection that is new to the drains nothing is asked. -/
theorem fits_new : Fits c a { cnx := i } := by
  constructor
  · simp
  · simp
  · simp
  · simp

theorem fits_known {told : Option CnxTold} (h : ∀ t ∈ told, t.Fits c a) :
    (known told i).Fits c a := by
  unfold known
  split
  · split
    · exact h _ rfl
    · exact fits_new
  · exact fits_new

@[simp] theorem known_cnx (told : Option CnxTold) : (known told i).cnx = i := by
  unfold known
  split
  · split
    · assumption
    · rfl
  · rfl

@[simp] theorem drained_cnx : (t.drained n e).cnx = t.cnx := rfl

theorem drained_of_not_ends (h : ¬ Ends e.eventType) : (t.drained n e).stage = t.stage :=
  if_neg fun he => h he.1

theorem drained_of_ends (h : Ends e.eventType) : (t.drained n e).stage ≠ .live := by
  unfold drained
  dsimp only
  split
  · simp
  · rename_i hnot
    exact fun hlive => hnot ⟨h, hlive⟩

/-- A snapshot takes the place of the one before, under a new number. -/
theorem Fits.bears (hc : c.Fresh) (hlive : t.stage = .live) (hb : SnapCache.Bears c.size e) :
    (t.drained c.size e).Fits (c.entry e) e.cnx := by
  have hstage : (t.drained c.size e).stage = .live := by
    rw [drained_of_not_ends (SnapCache.not_ends_of_bears hb), hlive]
  have hlast : (t.drained c.size e).last = some e.payload := if_pos hb
  rw [SnapCache.entry_of_bears hb]
  constructor
  · intro _ bytes hbytes
    rw [hlast] at hbytes
    cases hbytes
    simp
  · rintro - - ⟨d, hd, -, hobject⟩
    have hlt := hc.drops d hd
    have hnew : c.objects = d.2.object := by simpa using hobject
    omega
  · rw [hstage]
    simp
  · rw [hstage]
    simp

/-- An end event has the cached snapshot noted. -/
theorem Fits.ends (h : t.Fits c e.cnx) (hends : Ends e.eventType)
    (hb : ¬ SnapCache.Bears c.size e) :
    (t.drained c.size e).Fits (c.entry e) e.cnx := by
  have hlast : (t.drained c.size e).last = t.last := if_neg hb
  have hclosed : (t.drained c.size e).stage = .closed → t.stage = .closed := by
    unfold drained
    dsimp only
    split
    · simp
    · exact id
  have hentry : c.entry e = c.forget e.cnx := by rw [SnapCache.entry_of_not_bears hb, if_pos hends]
  rw [hentry]
  constructor
  · intro hstage bytes hbytes
    rw [hlast] at hbytes
    rw [SnapCache.forget_snapshots]
    refine h.last (fun hc => hstage ?_) bytes hbytes
    unfold drained
    simp [hc]
  · exact fun hlive => absurd hlive (drained_of_ends hends)
  · intro _ hsnap
    rw [SnapCache.forget_snapshots] at hsnap
    obtain ⟨snap, hsnap⟩ := Option.ne_none_iff_exists'.1 hsnap
    have hforget : c.forget e.cnx = { c with drops := c.drops ++ [(e.cnx, snap)] } := by
      unfold SnapCache.forget
      rw [hsnap]
    rw [hforget]
    exact ⟨(e.cnx, snap), by simp, rfl, by simp [hsnap]⟩
  · intro hstage
    rw [SnapCache.forget_snapshots]
    exact h.gone (hclosed hstage)

theorem Fits.drained (h : t.Fits c e.cnx) (hc : c.Fresh)
    (hlive : SnapCache.Bears c.size e → t.stage = .live) :
    (t.drained c.size e).Fits (c.entry e) e.cnx := by
  by_cases hb : SnapCache.Bears c.size e
  · exact Fits.bears hc (hlive hb) hb
  · by_cases hends : Ends e.eventType
    · exact h.ends hends hb
    · have hsame : t.drained c.size e = t := by simp [CnxTold.drained, hends, hb]
      rw [hsame, SnapCache.entry_of_not_bears hb, if_neg hends]
      exact h

/-- Entries of other addresses do not matter. -/
theorem Fits.entry_of_ne (h : t.Fits c a) (ha : a ≠ e.cnx) : t.Fits (c.entry e) a := by
  by_cases hb : SnapCache.Bears c.size e
  · rw [SnapCache.entry_of_bears hb]
    refine h.congr (Function.update_of_ne ha ..) ?_
    simp [SnapCache.Drops, Function.update_of_ne ha]
  · rw [SnapCache.entry_of_not_bears hb]
    split
    · refine h.congr (by rw [SnapCache.forget_snapshots]) ?_
      unfold SnapCache.Drops
      rw [SnapCache.forget_snapshots]
      unfold SnapCache.forget
      split
      · simp [ha.symm]
      · rfl
    · exact h

theorem cycled_ne_closing : t.cycled.stage ≠ .closing := by
  cases hs : t.stage <;> simp [CnxTold.cycled, hs]

theorem live_of_cycled (h : t.cycled.stage ≠ .closed) : t.stage = .live := by
  cases hs : t.stage <;> simp [CnxTold.cycled, hs] at h ⊢

theorem ne_live_of_cycled (h : t.cycled.stage ≠ .live) : t.stage ≠ .live := by
  intro hs
  simp [CnxTold.cycled, hs] at h

/-- The drops of a new cycle take the snapshots of the connections whose end was seen, and no
others. -/
theorem Fits.cycled (h : t.Fits c a) : t.cycled.Fits c.beginCycle a := by
  have hnone : ¬ c.beginCycle.Drops c.beginCycle.drops a := by simp [SnapCache.Drops]
  constructor
  · intro hstage bytes hbytes
    have hlive := live_of_cycled hstage
    have hlast : t.last ≠ none := Option.ne_none_iff_exists'.2 ⟨bytes, hbytes⟩
    rw [SnapCache.beginCycle_snapshots, if_neg (h.spared hlive hlast)]
    exact h.last (by simp [hlive]) bytes hbytes
  · exact fun _ _ => hnone
  · exact fun hstage => absurd hstage cycled_ne_closing
  · intro hstage
    have hended : t.stage ≠ .live := ne_live_of_cycled (by simp [hstage])
    rw [SnapCache.beginCycle_snapshots]
    by_cases hsnap : c.snapshots a = none
    · rw [hsnap, ite_self]
    · have hclosing : t.stage = .closing := by
        cases hs : t.stage with
        | live => exact absurd hs hended
        | closing => rfl
        | closed => exact absurd (h.gone hs) hsnap
      exact if_pos (h.noted hclosing hsnap)

end CnxTold

/-! ## The invariant -/

namespace SnapCache

variable {c : SnapCache} {e : Entry} {a : ℕ}

theorem Fresh.entry (h : c.Fresh) : (c.entry e).Fresh := by
  by_cases hb : Bears c.size e
  · rw [entry_of_bears hb]
    constructor
    · exact fun d hd => Nat.lt_succ_of_lt (h.drops d hd)
    · intro a snap hsnap
      by_cases ha : a = e.cnx
      · subst ha
        simp only [Function.update_self, Option.mem_def, Option.some.injEq] at hsnap
        subst hsnap
        exact Nat.lt_succ_self _
      · have hold : snap ∈ c.snapshots a := by simpa [ha] using hsnap
        exact Nat.lt_succ_of_lt (h.cached a snap hold)
  · rw [entry_of_not_bears hb]
    split
    · unfold forget
      split
      · rename_i snap hsnap
        refine ⟨fun d hd => ?_, h.cached⟩
        rcases List.mem_append.1 hd with hd | hd
        · exact h.drops d hd
        · rw [List.mem_singleton.1 hd]
          exact h.cached _ snap hsnap
      · exact h
    · exact h

theorem Fresh.beginCycle (h : c.Fresh) : c.beginCycle.Fresh := by
  constructor
  · simp
  · intro a snap hsnap
    rw [beginCycle_snapshots] at hsnap
    rw [beginCycle_objects]
    split at hsnap
    · cases hsnap
    · exact h.cached a snap hsnap

end SnapCache

namespace SnapRun

open CnxTold

variable {s s' : SnapRun} {act : SnapAct} {a i : ℕ} {e : Entry} {rx : List (Entry × ℕ)}

/-- The entries of the RX ring agree with what is pushed and drained: nothing after an end event
brings a snapshot. -/
structure Inv (s : SnapRun) : Prop where
  fresh : s.cache.Fresh
  fits : ∀ a, ∀ t ∈ s.told a, t.Fits s.cache a
  rxEnded : ∀ x ∈ s.rx, Ends x.1.eventType → s.ended x.2
  rxOrder : s.rx.Pairwise fun x y => Ends x.1.eventType → x.2 = y.2 →
    ¬ SnapCache.Bears s.cache.size y.1
  toldEnded : ∀ a, ∀ t ∈ s.told a, t.stage ≠ .live → s.ended t.cnx
  rxBears : ∀ x ∈ s.rx, SnapCache.Bears s.cache.size x.1 → (known (s.told x.1.cnx) x.2).stage =
    .live

theorem init_inv (size : ℕ) : (init size).Inv := by
  constructor
  · exact ⟨(fun _ h => nomatch h), (fun _ _ h => nomatch h)⟩
  · exact fun _ _ h => nomatch h
  · exact fun _ h => nomatch h
  · exact .nil
  · exact fun _ _ h => nomatch h
  · exact fun _ h => nomatch h

/-- A connection that has not ended has not been seen to end. -/
theorem Inv.known_live (h : s.Inv) (hi : s.ended i = false) :
    (known (s.told a) i).stage = .live := by
  unfold known
  split
  · split
    · rename_i t htold hcnx
      by_contra hstage
      have hended := h.toldEnded a t htold hstage
      rw [hcnx, hi] at hended
      cases hended
    · rfl
  · rfl

theorem Inv.rxPush (h : s.Inv)
    (hok : SnapCache.Bears s.cache.size e → s.ended (s.latest e.cnx) = false) :
    (s.rxPush e).Inv := by
  have hkeeps : ∀ i, s.ended i → (s.rxPush e).ended i := by
    intro i hi
    unfold SnapRun.rxPush
    dsimp only
    split
    · simp [Function.update_apply, hi]
    · exact hi
  have hrx : (s.rxPush e).rx = s.rx ++ [(e, s.latest e.cnx)] := rfl
  constructor
  · exact h.fresh
  · exact h.fits
  · intro x hx hends
    rw [hrx] at hx
    rcases List.mem_append.1 hx with hx | hx
    · exact hkeeps _ (h.rxEnded x hx hends)
    · rw [List.mem_singleton.1 hx] at hends ⊢
      simp [SnapRun.rxPush, hends]
  · rw [hrx]
    refine List.pairwise_append.2
      ⟨h.rxOrder, List.pairwise_singleton .., fun x hx y hy hends hcnx hb => ?_⟩
    rw [List.mem_singleton.1 hy] at hcnx hb
    have hended := h.rxEnded x hx hends
    rw [hcnx, hok hb] at hended
    cases hended
  · exact fun a t ht hstage => hkeeps _ (h.toldEnded a t ht hstage)
  · intro x hx hb
    rw [hrx] at hx
    rcases List.mem_append.1 hx with hx | hx
    · exact h.rxBears x hx hb
    · rw [List.mem_singleton.1 hx] at hb ⊢
      exact h.known_live (hok hb)

theorem Inv.drained (h : s.Inv) (hrx : s.rx = (e, i) :: rx) :
    (SnapRun.drained { s with rx := rx } e i).Inv := by
  have hhead : (e, i) ∈ s.rx := hrx ▸ List.mem_cons_self
  have hrest : ∀ x ∈ rx, x ∈ s.rx := fun x hx => hrx ▸ List.mem_cons_of_mem _ hx
  have horder := h.rxOrder
  rw [hrx, List.pairwise_cons] at horder
  let t := (known (s.told e.cnx) i).drained s.cache.size e
  have htold : ∀ a, (SnapRun.drained { s with rx := rx } e i).told a = if a = e.cnx then some t
    else s.told a := by
    intro a
    exact Function.update_apply ..
  have hsize : (s.cache.entry e).size = s.cache.size := SnapCache.entry_size
  constructor
  · exact h.fresh.entry
  · intro a u hu
    rw [htold] at hu
    split at hu
    · subst_vars
      cases hu
      exact (fits_known (h.fits e.cnx)).drained h.fresh (h.rxBears _ hhead)
    · exact (h.fits a u hu).entry_of_ne ‹_›
  · exact fun x hx => h.rxEnded x (hrest x hx)
  · show rx.Pairwise fun x y => Ends x.1.eventType → x.2 = y.2 →
      ¬ SnapCache.Bears (s.cache.entry e).size y.1
    rw [hsize]
    exact horder.2
  · intro a u hu hstage
    rw [htold] at hu
    split at hu
    · cases hu
      show s.ended t.cnx
      by_cases hends : Ends e.eventType
      · have hended := h.rxEnded _ hhead hends
        simpa [t] using hended
      · have hknown : (known (s.told e.cnx) i).stage ≠
          .live := by rwa [drained_of_not_ends hends] at hstage
        cases hi : s.ended i with
        | true => simp [t, hi]
        | false => exact absurd (h.known_live hi) hknown
    · exact h.toldEnded a u hu hstage
  · intro x hx hb
    have hb' : SnapCache.Bears s.cache.size x.1 := hsize ▸ hb
    rw [htold]
    split
    · rename_i ha
      by_cases hi : i = x.2
      · have hends : ¬ Ends e.eventType := fun hends => horder.1 x hx hends hi hb'
        have hlive := h.rxBears x (hrest x hx) hb'
        rw [ha, ← hi] at hlive
        have hstage : t.stage = .live := by rw [drained_of_not_ends hends, hlive]
        have hcnx : t.cnx = x.2 := by simp [t, hi]
        simp [known, hcnx, hstage]
      · have hcnx : t.cnx ≠ x.2 := by simp [t, hi]
        simp [known, hcnx]
    · exact h.rxBears x (hrest x hx) hb'

theorem Inv.beginDrain (h : s.Inv) :
    Inv { s with
      cache := s.cache.beginCycle
      told := fun a => (s.told a).map CnxTold.cycled } := by
  constructor
  · exact h.fresh.beginCycle
  · intro a t ht
    obtain ⟨u, hu, rfl⟩ := Option.mem_map.1 ht
    exact (h.fits a u hu).cycled
  · exact h.rxEnded
  · rw [SnapCache.beginCycle_size]
    exact h.rxOrder
  · intro a t ht hstage
    obtain ⟨u, hu, rfl⟩ := Option.mem_map.1 ht
    exact h.toldEnded a u hu (ne_live_of_cycled hstage)
  · intro x hx hb
    rw [SnapCache.beginCycle_size] at hb
    have hlive := h.rxBears x hx hb
    unfold known at hlive ⊢
    dsimp only
    cases htold : s.told x.1.cnx with
    | none => rfl
    | some t =>
      rw [htold] at hlive
      dsimp only [Option.map_some] at hlive ⊢
      by_cases hcnx : t.cnx = x.2
      · rw [if_pos hcnx] at hlive
        have hcycled : t.cycled.stage = .live := by simp [CnxTold.cycled, hlive]
        rw [if_pos (show t.cycled.cnx = x.2 from hcnx), hcycled]
      · rw [if_neg (show ¬ t.cycled.cnx = x.2 from hcnx)]

/-- The invariant is about neither the TX event ring nor the connections that are listed. -/
theorem Inv.of_same (h : s.Inv) (hcache : s'.cache.snapshots = s.cache.snapshots)
    (hdrops : s'.cache.drops = s.cache.drops) (hobjects : s'.cache.objects = s.cache.objects)
    (hsize : s'.cache.size = s.cache.size) (hrx : s'.rx = s.rx) (hended : s'.ended = s.ended)
    (htold : s'.told = s.told) :
    s'.Inv := by
  obtain ⟨⟨n, snapshots, drops, posted, objects⟩, rx, tx, listed, latest, created, ended, told⟩ :=
    s'
  dsimp only at hcache hdrops hobjects hsize hrx hended htold
  subst hcache hdrops hobjects hsize hrx hended htold
  constructor
  · exact ⟨h.fresh.drops, h.fresh.cached⟩
  · exact fun a t ht => (h.fits a t ht).congr rfl Iff.rfl
  · exact h.rxEnded
  · exact h.rxOrder
  · exact h.toldEnded
  · exact h.rxBears

theorem Inv.step (h : s.Inv) (hok : s.NotAfterEnd act) (hstep : s.step act = some s') : s'.Inv := by
  cases act with
  | connect a =>
    simp only [SnapRun.step] at hstep
    split at hstep
    · cases hstep
    · cases hstep
      exact h.of_same rfl rfl rfl rfl rfl rfl rfl
  | delete a =>
    simp only [SnapRun.step] at hstep
    split at hstep
    · cases hstep
      exact h.of_same rfl rfl rfl rfl rfl rfl rfl
    · cases hstep
  | push e =>
    cases hstep
    exact h.rxPush (hok e rfl)
  | postRefresh a refused =>
    cases hstep
    unfold SnapRun.postRefresh
    split
    · exact h
    · exact h.of_same rfl rfl rfl rfl rfl rfl rfl
  | answer snap =>
    simp only [SnapRun.step] at hstep
    split at hstep
    · cases hstep
    · rename_i a tx htx
      cases hstep
      have htail : Inv { s with tx := tx } := h.of_same rfl rfl rfl rfl rfl rfl rfl
      unfold SnapRun.answer
      split
      · rename_i hlisted
        have hlisted' : s.listed a = true := hlisted
        refine htail.rxPush (hok _ ?_)
        simp [pushes, htx, hlisted']
      · exact htail
  | beginDrain =>
    cases hstep
    exact h.beginDrain
  | drainEntry =>
    simp only [SnapRun.step] at hstep
    split at hstep
    · cases hstep
    · rename_i e i rx hrx
      cases hstep
      exact h.drained hrx

theorem Inv.forgotten (h : s.Inv) : s.Forgotten := by
  intro a t ht
  have hfits := h.fits a t ht
  exact ⟨fun hstage => hfits.last (by simp [hstage]), hfits.gone⟩

/-! ## The theorem -/

/-- If no snapshot is pushed for a connection after its end event, the handlers of the closing drain
read the last one, and none stays in the cache. -/
theorem snapshots_forgotten (size : ℕ) (acts : List SnapAct)
    (h : Steps.Along step NotAfterEnd (init size) acts)
    (hrun : Steps.run step (init size) acts = some s) : s.Forgotten :=
  (Steps.invariant (fun _ _ _ hs hok hstep => hs.step hok hstep) (init_inv size) h hrun).forgotten

/-- An event of the connection at address 7. -/
def event (type : EventType) (data : List UInt8) : Entry := Entry.withData
    { eventType := type, cnx := 7 } data

/-- A refresh is answered just before the close, the drain sees both, and the address is used again
in the same cycle. -/
def reusedAddress : List SnapAct :=
  [.connect 7, .push (event .ready [1]), .beginDrain, .drainEntry, .postRefresh 7 false,
    .answer [2],
    .push (event .close []), .delete 7, .connect 7, .push (event .ready [3]), .beginDrain,
      .drainEntry, .drainEntry,
    .drainEntry, .push (event .appClose []), .beginDrain, .drainEntry]

theorem snapshots_forgotten_reusedAddress : ∃ s, Steps.run step (init 1) reusedAddress = some s ∧
    s.Forgotten ∧
    (s.told 7).map (fun t => (t.cnx, t.stage, t.last)) = some (2, .closing, some [3]) := by
  have hok : Steps.Along step NotAfterEnd (init 1) reusedAddress := by decide +kernel
  have hrun : (Steps.run step (init 1) reusedAddress).isSome := by decide +kernel
  obtain ⟨s, hs⟩ := Option.isSome_iff_exists.1 hrun
  have htold : ((Steps.run step (init 1) reusedAddress).bind (·.told 7)).map
    (fun t => (t.cnx, t.stage, t.last)) =
      some (2, .closing, some [3]) := by decide +kernel
  rw [hs] at htold
  exact ⟨s, hs, snapshots_forgotten 1 reusedAddress hok hs, htold⟩

/-- A refresh is answered after the close event, while the connection is still listed. The drain
that sees the close sees the answer too. -/
def lateAnswer : List SnapAct :=
  [.connect 7, .push (event .ready [1]), .beginDrain, .drainEntry, .postRefresh 7 false,
    .push (event .close []),
    .answer [2], .delete 7, .beginDrain, .drainEntry, .drainEntry, .beginDrain]

/-- The drop noted at the close is passed over, since the answer has taken the place of the
snapshot, and the answer stays. -/
theorem lateAnswer_kept : ∃ s, Steps.run step (init 1) lateAnswer = some s ∧ ¬ s.Forgotten := by
  have hkept : (Steps.run step (init 1) lateAnswer).map
      (fun s => ((s.told 7).map (·.stage), (s.cache.snapshots 7).map (·.bytes))) =
        some (some .closed, some [2]) := by
    decide +kernel
  obtain ⟨s, hs, hkept⟩ := Option.map_eq_some_iff.1 hkept
  obtain ⟨hstage, hsnap⟩ := Prod.mk.inj hkept
  obtain ⟨t, ht, hclosed⟩ := Option.map_eq_some_iff.1 hstage
  refine ⟨s, hs, fun h => ?_⟩
  rw [(h 7 t ht).2 hclosed] at hsnap
  cases hsnap

end SnapRun

end Aiopquic
