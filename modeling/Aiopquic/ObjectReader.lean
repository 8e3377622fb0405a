import Aiopquic.ObjectParse
import Mathlib.Data.List.Induction

/-!
# Reading objects as they arrive

A reader saves before each attempt, commits after an object and rolls back when bytes are missing;
any other exception ends it. What it reads depends on the bytes alone, not on the chunks they come
in.
-/

namespace Aiopquic

open FlatBuffer (ofBytes)

/-- What a reader needs of its parser. -/
structure Incremental (parse : FlatBuffer.Op ObjectBody) : Prop where
  settled : Fallible.Settled Raise.Underflows FlatBuffer.append parse
  onward : Fallible.Moves FlatBuffer.Onward parse
  shortens : ∀ f body, (parse f).1 = .ok body → (parse f).2.rest.length < f.rest.length
  empty : ∃ e, (parse (ofBytes [])).1 = .error e ∧ e.Underflows

theorem parseBody_incremental (vi64 extensionsPresent : Bool) (extsLenLimit : ℤ) (kvpDelta : Bool) :
    Incremental (FlatBuffer.parseBody vi64 extensionsPresent extsLenLimit kvpDelta) where
  settled := FlatBuffer.parseBody_settled vi64 extensionsPresent extsLenLimit kvpDelta
  onward f := (FlatBuffer.parseBody_moves vi64 extensionsPresent extsLenLimit kvpDelta f).1
  shortens f body h := by
    obtain ⟨⟨hbytes, -, -⟩, hpos⟩ := FlatBuffer.parseBody_moves vi64 extensionsPresent
      extsLenLimit kvpDelta f
    have hlt := hpos body h
    have hle := (FlatBuffer.parseBody vi64 extensionsPresent extsLenLimit kvpDelta f).2.pos_le
    rw [hbytes] at hle
    rw [FlatBuffer.length_rest, FlatBuffer.length_rest, hbytes]
    omega
  empty := by
    obtain ⟨e, hvint, he⟩ : ∃ e, (FlatBuffer.sourceOf vi64).pullVint (ofBytes []) =
      (.error e, ofBytes []) ∧
        e.Underflows := by
      cases vi64
      · exact ⟨_, FlatBuffer.pullPrefixed_nil rfl, rfl⟩
      · exact ⟨_, FlatBuffer.pullPrefixed_nil rfl, rfl⟩
    refine ⟨e, ?_, he⟩
    rw [FlatBuffer.parseBody, BodySource.parseObject, Fallible.bind_error hvint]

/-! ## What is in a stream -/

/-- How the reading of some bytes ends: with bytes that more are needed to, or an exception. -/
inductive Ending
  | waiting (pending : List UInt8)
  | failed (e : Raise)
  deriving DecidableEq, Repr

/-- The objects one after the other, each parsed at the start of what the one before left. -/
inductive Reads (parse : FlatBuffer.Op ObjectBody) : List UInt8 → List ObjectBody → Ending → Prop
  | wait {bytes : List UInt8} {e : Raise} (h : (parse (ofBytes bytes)).1 = .error e)
    (he : e.Underflows) :
    Reads parse bytes [] (.waiting bytes)
  | fail {bytes : List UInt8} {e : Raise} (h : (parse (ofBytes bytes)).1 = .error e)
    (he : ¬ e.Underflows) :
    Reads parse bytes [] (.failed e)
  | object {bytes : List UInt8} {body : ObjectBody} {bodies : List ObjectBody} {ending : Ending}
    (h : (parse (ofBytes bytes)).1 = .ok body)
    (hrest : Reads parse (parse (ofBytes bytes)).2.rest bodies ending) :
    Reads parse bytes (body :: bodies) ending

namespace Reads

variable {parse : FlatBuffer.Op ObjectBody} {bytes data pending : List UInt8}
    {bodies bodies' : List ObjectBody}
  {ending ending' : Ending} {e : Raise}

theorem unique (h : Reads parse bytes bodies ending) (h' : Reads parse bytes bodies' ending') :
    bodies = bodies' ∧ ending = ending' := by
  induction h generalizing bodies' ending' with
  | wait h he =>
    cases h' with
    | wait => exact ⟨rfl, rfl⟩
    | fail h' he' =>
      rw [h] at h'
      exact absurd (Except.error.inj h' ▸ he) he'
    | object h' => rw [h] at h'; cases h'
  | fail h he =>
    cases h' with
    | wait h' he' =>
      rw [h] at h'
      exact absurd (Except.error.inj h' ▸ he') he
    | fail h' =>
      rw [h] at h'
      exact ⟨rfl, by rw [Except.error.inj h']⟩
    | object h' => rw [h] at h'; cases h'
  | object h hrest ih =>
    cases h' with
    | wait h' => rw [h] at h'; cases h'
    | fail h' => rw [h] at h'; cases h'
    | object h' hrest' =>
      rw [h] at h'
      obtain ⟨rfl, rfl⟩ := ih hrest'
      exact ⟨by rw [Except.ok.inj h'], rfl⟩

/-- Every string of bytes can be read, since no object is empty. -/
theorem total (hp : Incremental parse) (bytes : List UInt8) :
    ∃ bodies ending, Reads parse bytes bodies ending := by
  induction hlen : bytes.length using Nat.strong_induction_on generalizing bytes with
  | _ n ih =>
    cases hres : (parse (ofBytes bytes)).1 with
    | ok body =>
      have hshort := hp.shortens _ body hres
      obtain ⟨bodies, ending, hrest⟩ := ih _ (hlen ▸ hshort) (parse (ofBytes bytes)).2.rest rfl
      exact ⟨body :: bodies, ending, .object hres hrest⟩
    | error e =>
      by_cases he : e.Underflows
      · exact ⟨[], .waiting bytes, .wait hres he⟩
      · exact ⟨[], .failed e, .fail hres he⟩

/-- What comes behind does not change an object that is read. -/
theorem rest_append (hp : Incremental parse) {body : ObjectBody}
    (h : (parse (ofBytes bytes)).1 = .ok body) (data : List UInt8) :
    (parse (ofBytes (bytes ++ data))).1 = .ok body ∧
      (parse (ofBytes (bytes ++ data))).2.rest = (parse (ofBytes bytes)).2.rest ++ data := by
  have hmore := hp.settled (ofBytes bytes) data (by rw [h]; nofun)
  change parse (ofBytes (bytes ++ data)) = _ at hmore
  rw [hmore]
  exact ⟨h, FlatBuffer.rest_append _ data⟩

/-- More bytes for a reader that waits. -/
theorem more (hp : Incremental parse)
    (h : Reads parse bytes bodies (.waiting pending))
    (h' : Reads parse (pending ++ data) bodies' ending) :
    Reads parse (bytes ++ data) (bodies ++ bodies') ending := by
  generalize hending : Ending.waiting pending = ending₀ at h
  induction h with
  | wait h he =>
    cases hending
    exact h'
  | fail h he => cases hending
  | object h hrest ih =>
    obtain ⟨hobject, hbehind⟩ := rest_append hp h data
    exact .object hobject (hbehind ▸ ih hending)

/-- More bytes for a reader that has ended. -/
theorem more_failed (hp : Incremental parse)
    (h : Reads parse bytes bodies (.failed e)) (data : List UInt8) :
    Reads parse (bytes ++ data) bodies (.failed e) := by
  generalize hending : Ending.failed e = ending at h
  induction h with
  | wait h he => cases hending
  | @fail bytes e' h he =>
    cases hending
    have hmore := hp.settled (ofBytes bytes) data (by
      rw [h]
      rintro _ ⟨⟩
      exact he)
    change parse (ofBytes (bytes ++ data)) = _ at hmore
    exact .fail (by rw [hmore]; exact h) he
  | object h hrest ih =>
    obtain ⟨hobject, hbehind⟩ := rest_append hp h data
    exact .object hobject (hbehind ▸ ih hending)

end Reads

/-! ## The reader -/

/-- The attempts after an arrival. -/
def readLoop (parse : StreamChain.Op ObjectBody) : ℕ → StreamChain.Op
    (List ObjectBody × Option Raise)
  | 0 => Fallible.raise .stuck
  | fuel + 1 => do
    StreamChain.save
    match ← parse.attempt with
    | .ok body => do
      StreamChain.commit
      let read ← readLoop parse fuel
      pure (body :: read.1, read.2)
    | .error e =>
      if e.Underflows then do
        StreamChain.rollback
        pure ([], none)
      else pure ([], some e)

/-- A reader of a stream: the objects so far, and the exception that ended it. -/
structure ObjectReader where
  chain : StreamChain := {}
  objects : List ObjectBody := []
  error : Option Raise := none
  deriving DecidableEq

namespace ObjectReader

/-- Bytes arrive. -/
def arrive (parse : StreamChain.Op ObjectBody) (r : ObjectReader) (data : List UInt8) :
    ObjectReader :=
  match r.error with
  | some _ => r
  | none =>
    let chain := (StreamChain.extend data r.chain).2
    match readLoop parse ((chain.total - chain.pos).toNat + 1) chain with
    | (.ok (bodies, error), chain) => { chain, objects := r.objects ++ bodies, error }
    | (.error e, chain) => { r with chain, error := some e }

/-- A stream arrives in some chunks. -/
def readAll (parse : StreamChain.Op ObjectBody) (chunks : List (List UInt8)) : ObjectReader :=
  chunks.foldl (arrive parse) {}

/-- The bytes the next attempt starts at. -/
def pending (r : ObjectReader) : List UInt8 := r.chain.chunks.flatten.drop r.chain.pos.toNat

/-- The reader has come to the end of what has arrived. -/
def Agrees (r : ObjectReader) : Ending → Prop
  | .waiting pending => r.error = none ∧ Refines r.chain (ofBytes pending)
  | .failed e => r.error = some e

end ObjectReader

variable {chainParse : StreamChain.Op ObjectBody} {parse : FlatBuffer.Op ObjectBody}
    {bytes : List UInt8}
  {bodies : List ObjectBody} {ending : Ending} {c : StreamChain} {fuel : ℕ}

/-- An attempt on the chain, with its anchor where it starts. -/
theorem attempt_simulated (hsim : Fallible.Simulates Refines chainParse parse)
    (hc : Refines c (ofBytes bytes)) :
    ∃ saved parsed, StreamChain.save c = (.ok (), saved) ∧
      chainParse.attempt saved = (.ok (parse (ofBytes bytes)).1, parsed) ∧
      Refines parsed (parse (ofBytes bytes)).2 := by
  obtain ⟨hres, hrel⟩ := hsim _ _ (Meets.save c _ hc).2.1
  change Refines _ (parse (ofBytes bytes)).2 at hrel
  change _ = (parse (ofBytes bytes)).1 at hres
  refine ⟨(StreamChain.save c).2, (chainParse (StreamChain.save c).2).2, rfl, ?_, hrel⟩
  rw [Fallible.attempt, hres]

/-- The attempts read what is there. -/
theorem readLoop_reads (hsim : Fallible.Simulates Refines chainParse parse)
    (hp : Incremental parse) (h : Reads parse bytes bodies ending) (hc : Refines c (ofBytes bytes))
    (hfuel : bytes.length < fuel) :
    ∃ error c', readLoop chainParse fuel c = (.ok (bodies, error), c') ∧
    ObjectReader.Agrees ⟨c', bodies, error⟩ ending := by
  induction h generalizing c fuel with
  | @wait bytes e h he =>
    obtain ⟨fuel, rfl⟩ := Nat.exists_eq_succ_of_ne_zero (Nat.ne_of_gt (Nat.zero_lt_of_lt hfuel))
    obtain ⟨saved, parsed, hsave, hattempt, hparsed⟩ := attempt_simulated hsim hc
    rw [h] at hattempt
    obtain ⟨hbytes, hanchor, -⟩ := hp.onward (ofBytes bytes)
    have hback : (FlatBuffer.rollback (parse (ofBytes bytes)).2).2 = ofBytes bytes := by
      ext1
      · exact hbytes
      · exact hanchor
      · exact hanchor
    have hrolled := (Meets.rollback parsed _ hparsed).2.1
    rw [hback] at hrolled
    refine ⟨none, (StreamChain.rollback parsed).2, ?_, rfl, hrolled⟩
    rw [readLoop, Fallible.bind_ok hsave, Fallible.bind_ok hattempt]
    dsimp only
    rw [if_pos he]
    rfl
  | @fail bytes e h he =>
    obtain ⟨fuel, rfl⟩ := Nat.exists_eq_succ_of_ne_zero (Nat.ne_of_gt (Nat.zero_lt_of_lt hfuel))
    obtain ⟨saved, parsed, hsave, hattempt, hparsed⟩ := attempt_simulated hsim hc
    rw [h] at hattempt
    refine ⟨some e, parsed, ?_, rfl⟩
    rw [readLoop, Fallible.bind_ok hsave, Fallible.bind_ok hattempt]
    dsimp only
    rw [if_neg he]
    rfl
  | @object bytes body bodies ending h hrest ih =>
    obtain ⟨fuel, rfl⟩ := Nat.exists_eq_succ_of_ne_zero (Nat.ne_of_gt (Nat.zero_lt_of_lt hfuel))
    obtain ⟨saved, parsed, hsave, hattempt, hparsed⟩ := attempt_simulated hsim hc
    rw [h] at hattempt
    obtain ⟨hres, hcommit, -⟩ := Meets.commit parsed _ hparsed
    obtain ⟨⟨r, committed⟩, hstep⟩ : ∃ p, StreamChain.commit parsed = p := ⟨_, rfl⟩
    rw [hstep] at hres hcommit
    cases hres
    have hshort : (parse (ofBytes bytes)).2.rest.length < fuel := by
      have hlt := hp.shortens _ body h
      have hlen : (ofBytes bytes).rest.length = bytes.length := rfl
      omega
    obtain ⟨error, c', hloop, hagrees⟩ := ih hcommit hshort
    refine ⟨error, c', ?_, hagrees⟩
    rw [readLoop, Fallible.bind_ok hsave, Fallible.bind_ok hattempt]
    dsimp only
    rw [Fallible.bind_ok hstep, Fallible.bind_ok hloop]
    rfl

/-- Whatever the chunks are, the reader has read what the bytes are. -/
theorem readAll_reads (hsim : Fallible.Simulates Refines chainParse parse)
    (hp : Incremental parse) (chunks : List (List UInt8)) :
    ∃ ending, Reads parse chunks.flatten (ObjectReader.readAll chainParse chunks).objects ending ∧
      (ObjectReader.readAll chainParse chunks).Agrees ending := by
  induction chunks using List.reverseRecOn with
  | nil =>
    obtain ⟨e, hraise, he⟩ := hp.empty
    exact ⟨.waiting [], .wait hraise he, rfl, Refines.start⟩
  | append_singleton chunks data ih =>
    obtain ⟨ending, hreads, hagrees⟩ := ih
    have hstep : ObjectReader.readAll chainParse (chunks ++ [data]) =
        (ObjectReader.readAll chainParse chunks).arrive chainParse data := List.foldl_concat ..
    rw [hstep, List.flatten_append, List.flatten_singleton]
    obtain ⟨⟨chain, objects, error⟩, hreader⟩ : ∃ r, ObjectReader.readAll chainParse chunks =
      r := ⟨_, rfl⟩
    rw [hreader] at hreads hagrees ⊢
    cases ending with
    | failed e =>
      obtain rfl : error = some e := hagrees
      exact ⟨.failed e, hreads.more_failed hp data, rfl⟩
    | waiting pending =>
      obtain ⟨herror, hchain⟩ := hagrees
      obtain rfl : error = none := herror
      obtain ⟨bodies, ending, hmore⟩ := Reads.total hp (pending ++ data)
      have hextended : Refines (StreamChain.extend data chain).2 (ofBytes (pending ++ data)) :=
        (Meets.extend data chain _ hchain).2.1
      have hfuel : (pending ++ data).length <
          ((StreamChain.extend data chain).2.total - (StreamChain.extend data chain).2.pos).toNat +
            1 := by
        rw [hextended.avail, Int.toNat_natCast]
        exact Nat.lt_succ_self _
      obtain ⟨error, c', hloop, hagrees⟩ := readLoop_reads hsim hp hmore hextended hfuel
      have harrive : ObjectReader.arrive chainParse ⟨chain, objects, none⟩ data =
        ⟨c', objects ++ bodies, error⟩ := by
        rw [ObjectReader.arrive]
        dsimp only
        rw [hloop]
      rw [harrive]
      refine ⟨ending, hreads.more hp hmore, ?_⟩
      cases ending with
      | waiting => exact hagrees
      | failed => exact hagrees

theorem ObjectReader.Agrees.pending_eq {r : ObjectReader} {bytes : List UInt8}
    (h : r.Agrees (.waiting bytes)) :
    r.pending = bytes := by
  rw [ObjectReader.pending, h.2.bytes, h.2.pos]
  rfl

theorem ObjectReader.Agrees.unique {r r' : ObjectReader} {ending : Ending} (h : r.Agrees ending)
    (h' : r'.Agrees ending) :
    r.error = r'.error ∧ (r.error = none → r.pending = r'.pending) := by
  cases ending with
  | waiting bytes => exact ⟨h.1.trans h'.1.symm, fun _ => h.pending_eq.trans h'.pending_eq.symm⟩
  | failed e =>
    have herror : r.error = some e := h
    refine ⟨herror.trans (Eq.symm h'), fun hnone => ?_⟩
    rw [herror] at hnone
    cases hnone

/-- Parsing as bytes arrive is parsing at once, for either flavour and all flags. An attempt that
finds out something other than that bytes are missing finds out the same, at the same position, when
more follow. So a reader reads from any chunks what it reads from their bytes in one: the objects,
and then the exception or what is still pending. And with a part of an object's bytes only, an
attempt underflows. No attempt goes on for ever. -/
theorem incremental_parsing (vi64 extensionsPresent : Bool) (extsLenLimit : ℤ) (kvpDelta : Bool) :
    let parse := StreamChain.parseBody vi64 extensionsPresent extsLenLimit kvpDelta
    (∀ c c' f data, Refines c f → Refines c' (f.append data) →
      (∀ e, (parse c).1 = .error e → ¬ e.Underflows) →
        (parse c').1 = (parse c).1 ∧ (parse c').2.pos = (parse c).2.pos) ∧
      (∀ chunks, (ObjectReader.readAll parse chunks).objects =
        (ObjectReader.readAll parse [chunks.flatten]).objects ∧
        (ObjectReader.readAll parse chunks).error =
          (ObjectReader.readAll parse [chunks.flatten]).error ∧
        ((ObjectReader.readAll parse chunks).error = none →
          (ObjectReader.readAll parse chunks).pending =
            (ObjectReader.readAll parse [chunks.flatten]).pending)) ∧
      (∀ c c' f data body, Refines c f → Refines c' (f.append data) → data ≠ [] →
        (parse c').1 = .ok body →
        (parse c').2.pos = (f.append data).bytes.length → ∃ e, (parse c).1 = .error e ∧
          e.Underflows) ∧
      ∀ c f, Refines c f → (parse c).1 ≠ .error .stuck := by
  intro parse
  have hsim := FlatBuffer.parseBody_simulated vi64 extensionsPresent extsLenLimit kvpDelta
  have hp := parseBody_incremental vi64 extensionsPresent extsLenLimit kvpDelta
  have hsame : ∀ c c' f data, Refines c f → Refines c' (f.append data) →
      (∀ e, (parse c).1 = .error e → ¬ e.Underflows) →
      (parse c').1 = (parse c).1 ∧ (parse c').2.pos = (parse c).2.pos := by
    intro c c' f data hc hc' hwait
    obtain ⟨hres, hrel⟩ := hsim c f hc
    obtain ⟨hres', hrel'⟩ := hsim c' _ hc'
    have hmore := hp.settled f data fun e he => hwait e (hres.trans he)
    rw [hmore] at hres' hrel'
    exact ⟨hres'.trans hres.symm, hrel'.pos.trans hrel.pos.symm⟩
  refine ⟨hsame, fun chunks => ?_, fun c c' f data body hc hc' hdata hok hend => ?_,
    fun c f hc => ?_⟩
  · obtain ⟨ending, hreads, hagrees⟩ := readAll_reads hsim hp chunks
    obtain ⟨ending', hreads', hagrees'⟩ := readAll_reads hsim hp [chunks.flatten]
    rw [List.flatten_singleton] at hreads'
    obtain ⟨hobjects, rfl⟩ := hreads.unique hreads'
    exact ⟨hobjects, hagrees.unique hagrees'⟩
  · by_contra hnot
    obtain ⟨-, hpos⟩ := hsame c c' f data hc hc' fun e he hunder => hnot ⟨e, he, hunder⟩
    -- the whole would end behind the part
    have hrel := (hsim c f hc).2
    have hbytes := (hp.onward f).1
    have hle := (FlatBuffer.parseBody vi64 extensionsPresent extsLenLimit kvpDelta f).2.pos_le
    have hlen : (f.append data).bytes.length = f.bytes.length + data.length := List.length_append
    have hdata' := List.length_pos_iff.2 hdata
    rw [hpos, hrel.pos, hlen] at hend
    rw [hbytes] at hle
    omega
  · rw [(hsim c f hc).1]
    exact FlatBuffer.parseBody_ne_stuck vi64 extensionsPresent extsLenLimit kvpDelta f

end Aiopquic
