import Aiopquic.ConnectParams

/-!
# The parameters of `TX_WT_OPEN` and `TX_WT_CLOSE` (`_transport.pyx`, `h3wt_callback.h`)

`push_open` writes a header, the server name, the path and the subprotocols into one payload, with
the three lengths cut to 16 bits. The worker refuses the session for a name or a path that does not
fit its buffer, and leaves out subprotocols that do not. `push_close` posts the reason as it is; the
worker leaves out one that does not fit.
-/

namespace Aiopquic

/-! ## The encoders -/

/-- `AIOPQUIC_WT_CONNECT_AUTO`. -/
def connectAuto : UInt8 := 0

/-- `AIOPQUIC_WT_CONNECT_H3`. -/
def connectH3 : UInt8 := 2

/-- `sizeof(aiopquic_wt_open_params_t)`. -/
def sizeofOpenParams : ℕ := 136

/-- `aiopquic_wt_open_params_t`. -/
structure OpenParams where
  addr : SockAddr
  sniLen : ℕ
  pathLen : ℕ
  protocolsLen : ℕ
  connectProtocol : UInt8
  deriving DecidableEq, Repr

/-- A `TX_WT_OPEN` entry: the header at the start of its payload, and the bytes behind it. -/
structure OpenCommand where
  params : OpenParams
  raw : List UInt8
  deriving DecidableEq, Repr

/-- A `TX_WT_CLOSE` entry; no bytes are a `NULL` payload. -/
structure CloseCommand where
  errorCode : UInt32
  data : List UInt8
  deriving DecidableEq, Repr

/-- The path that a call asks for; the empty one is the root. -/
def pathBytes (path : String) : List UInt8 := if path = "" then encode "/" else encode path

/-- `push_open`. `pushes` is whether `spsc_ring_push` has a slot and memory. -/
def pushOpen (inetPton : InetPton) (pushes : Bool) (host : String) (port : Int32)
    (path sni wtProtocols : String)
    (connectProtocol : Int32) : Posting OpenCommand :=
  let bSni := encode sni
  let bPath := pathBytes path
  let bProtocols := encode wtProtocols
  let sniLen := bSni.length % 2 ^ 32
  let pathLen := bPath.length % 2 ^ 32
  let protocolsLen := bProtocols.length % 2 ^ 32
  match fillSockaddr inetPton host port with
  | none => .raised
  | some addr =>
    -- `total` is a `uint32_t`.
    if 2 ^ 32 ≤ sizeofOpenParams + sniLen + pathLen + protocolsLen then .overrun
    else if pushes = false then .raised
    else .posted
      { params :=
          { addr, sniLen := sniLen % 2 ^ 16, pathLen := pathLen % 2 ^ 16, protocolsLen := protocolsLen % 2 ^ 16
            connectProtocol := UInt8.ofInt connectProtocol.toInt }
        raw := bSni.take sniLen ++ bPath.take pathLen ++ bProtocols.take protocolsLen }

/-- `push_close`. -/
def pushClose (pushes : Bool) (errorCode : UInt32) (reason : List UInt8) : Posting CloseCommand :=
  if pushes = false then .raised
    else .posted { errorCode, data := reason.take (reason.length % 2 ^ 32) }

/-! ## The worker -/

/-- The fields of `aiopquic_wt_session_t` that the two commands use. -/
structure OpeningSession where
  cnx : ℕ := 0
  h3Ctx : ℕ := 0
  controlStream : ℕ := 0
  controlStreamId : ℕ := 0
  sessionClosing : Bool := false
  finSent : Bool := false
  /-- `h3_ctx->wt_connect_protocol` is `picowt_connect_protocol_h3`. -/
  connectH3 : Bool := false
  connectAuthority : Option (List UInt8) := none
  connectPath : Option (List UInt8) := none
  connectProtocols : Option (List UInt8) := none
  deriving DecidableEq, Repr

/-- The pointers that `picowt_prepare_client_cnx` sets, with the number of the control stream. -/
structure Prepared where
  cnx : ℕ
  h3Ctx : ℕ
  controlStream : ℕ
  controlStreamId : ℕ

/-- What picowt, picoquic, `malloc` and the RX queue answer while the worker handles a `TX_WT_OPEN`.
`prepare` is nothing if `picowt_prepare_client_cnx` fails or leaves a pointer `NULL`. -/
structure OpenAnswers where
  prepare : Option Prepared
  dupAuthority : Bool := true
  dupPath : Bool := true
  dupProtocols : Bool := true
  connect : ℤ := 0
  startClientCnx : ℤ := 0
  rxPushes : Bool := true

/-- The texts of a call of `picowt_connect`. -/
structure ConnectCall where
  authority : List UInt8
  path : Option (List UInt8)
  protocols : Option (List UInt8)
  deriving DecidableEq, Repr

/-- What a `TX_WT_OPEN` does: the calls of `picowt_connect`, and the events it queues. -/
structure OpenEffect where
  session : OpeningSession
  connects : List ConnectCall := []
  rx : List RawEvent := []

namespace OpeningSession

/-- `aiopquic_wt_drop_retry`. -/
def dropRetry (s : OpeningSession) : OpeningSession :=
  { s with connectAuthority := none, connectPath := none, connectProtocols := none }

/-- The texts kept for a retry, each if `aiopquic_wt_strdup` has memory. -/
def keepRetry (s : OpeningSession) (a : OpenAnswers) (c : ConnectCall) : OpeningSession :=
  let s := { s with
    connectAuthority := if a.dupAuthority then some c.authority else none
    connectPath := if a.dupPath then c.path else none
    connectProtocols := if a.dupProtocols then c.protocols else none }
  if s.connectPath = none ∨ (c.protocols ≠ none ∧ s.connectProtocols = none) then s.dropRetry else s

/-- The call that `aiopquic_wt_retry_connect` makes, if a retry is left. -/
def retryCall (s : OpeningSession) : Option ConnectCall :=
  s.connectAuthority.map fun authority =>
    { authority, path := s.connectPath, protocols := s.connectProtocols }

/-- A retry repeats the call. -/
theorem retryCall_keepRetry (s : OpeningSession) (a : OpenAnswers) (c : ConnectCall)
    {r : ConnectCall}
    (h : (s.keepRetry a c).retryCall = some r) : r = c := by
  obtain ⟨authority, path, protocols⟩ := c
  cases hd : a.dupAuthority <;> cases hp : a.dupPath <;> cases hq : a.dupProtocols <;>
    cases path <;>
    cases protocols <;>
    simp [keepRetry, retryCall, dropRetry, hd, hp, hq] at h
  all_goals exact h.symm

end OpeningSession

namespace OpenAnswers

variable (a : OpenAnswers)

/-- `aiopquic_wt_push_event` of a `WT_SESSION_REFUSED`. -/
def refused (streamId errorCode : ℕ) : List RawEvent :=
  if a.rxPushes then [{ evtType := .wtSessionRefused, streamId, errorCode }] else []

/-- The result of `picowt_connect`, and of `picoquic_start_client_cnx` behind it. -/
def rc : ℤ := if a.connect = 0 then a.startClientCnx else a.connect

end OpenAnswers

/-- `aiopquic_wt_handle_tx` on `TX_WT_OPEN`, for a session pointer that is set. -/
def onOpen (a : OpenAnswers) (s : OpeningSession) (c : OpenCommand) : OpenEffect :=
  let p := c.params
  match field 256 c.raw 0 p.sniLen with
  | none => { session := s, rx := a.refused 0 1 }
  | some sniBuf =>
    match field 1024 c.raw p.sniLen p.pathLen with
    | none => { session := s, rx := a.refused 0 2 }
    | some pathBuf =>
      let protocolsArg := field 256 c.raw (p.sniLen + p.pathLen) p.protocolsLen
      match a.prepare with
      | none => { session := s, rx := a.refused 0 3 }
      | some made =>
        let s := { s with
          cnx := made.cnx
          h3Ctx := made.h3Ctx
          controlStream := made.controlStream
          controlStreamId := made.controlStreamId
          connectH3 := p.connectProtocol = connectH3 }
        let call : ConnectCall :=
          { authority := sniBuf, path := some pathBuf, protocols := protocolsArg }
        let s := if p.connectProtocol = connectAuto then s.keepRetry a call else s
        { session := s
          connects := [call]
          rx := if a.rc ≠ 0 then a.refused made.controlStreamId 4 else [] }

/-- A call of `picowt_send_close_session_message`. -/
structure CloseCall where
  errorCode : UInt32
  message : List UInt8
  deriving DecidableEq, Repr

/-- `aiopquic_wt_handle_tx` on `TX_WT_CLOSE`; `rc` is what the call returns. -/
def onClose (rc : ℤ) (s : OpeningSession) (c : CloseCommand) : OpeningSession × Option CloseCall :=
  if s.cnx = 0 ∨ s.controlStream = 0 then (s, none)
  else
    let message := (field 256 c.data 0 c.data.length).getD []
    ({ s with sessionClosing := true, finSent := s.finSent || rc = 0 },
      some { errorCode := c.errorCode, message })

/-! ## What the two commands carry -/

/-- `picowt_connect` was called once, with the texts asked for, or the session is refused. -/
def OpenEffect.Carries (r : OpenEffect) (sni path protocols : List UInt8) : Prop :=
  r.connects = [{ authority := sni, path := some path, protocols := textArg protocols }] ∨
    ∃ ev ∈ r.rx, ev.evtType = .wtSessionRefused

instance OpenEffect.decidableCarries (r : OpenEffect) (sni path protocols : List UInt8) :
    Decidable (r.Carries sni path protocols) :=
  inferInstanceAs (Decidable (_ ∨ _))

/-- The same of a call. One that raises has not accepted its arguments. -/
def Posting.Opens (p : Posting OpenCommand) (a : OpenAnswers) (s : OpeningSession)
    (sni path protocols : List UInt8) :
    Prop :=
  match p with
  | .raised => True
  | .overrun => False
  | .posted c => (onOpen a s c).Carries sni path protocols

instance Posting.decidableOpens (p : Posting OpenCommand) (a : OpenAnswers) (s : OpeningSession)
    (sni path protocols : List UInt8) :
    Decidable (p.Opens a s sni path protocols) :=
  match p with
  | .raised => isTrue trivial
  | .overrun => isFalse id
  | .posted c => inferInstanceAs (Decidable ((onOpen a s c).Carries sni path protocols))

/-- `picowt_send_close_session_message` was called with the code and the reason given. -/
def Posting.Closes (p : Posting CloseCommand) (rc : ℤ) (s : OpeningSession) (errorCode : UInt32)
    (reason : List UInt8) : Prop :=
  match p with
  | .raised => True
  | .overrun => False
  | .posted c => (onClose rc s c).2 = some { errorCode, message := reason }

/-- The three texts fit the worker's buffers and have no NUL. -/
structure OpenFits (sni path protocols : List UInt8) : Prop where
  sni_pos : 0 < sni.length
  sni_length : sni.length < 256
  sni_nul : (0 : UInt8) ∉ sni
  path_length : path.length < 1024
  path_nul : (0 : UInt8) ∉ path
  protocols_length : protocols.length < 256
  protocols_nul : (0 : UInt8) ∉ protocols

/-- A length field of 16 bits that the worker takes for a buffer of `size` bytes. -/
def LengthTaken (size : ℕ) (bytes : List UInt8) : Prop :=
  0 < bytes.length % 2 ^ 16 ∧ bytes.length % 2 ^ 16 < size

/-- The worker refuses the session: for the length field of the name or the path, or since picowt
fails. -/
def OpenAnswers.Refuses (a : OpenAnswers) (sni path : List UInt8) : Prop :=
  ¬ LengthTaken 256 sni ∨ ¬ LengthTaken 1024 path ∨ a.prepare = none ∨ a.rc ≠ 0

section Carries

variable {inetPton : InetPton} {pushes : Bool} {host path sni wtProtocols : String}
    {port connectProtocol : Int32}
  {a : OpenAnswers} {s : OpeningSession} {c : OpenCommand} {errorCode : UInt32}
  {reason : List UInt8} {rc : ℤ}
  {bSni bPath bProtocols : List UInt8}

/-- A reason is handed on exactly when the session is connected and the reason fits. -/
theorem onClose_iff :
    (onClose rc s { errorCode, data := reason.take (reason.length % 2 ^ 32) }).2 =
    some { errorCode, message := reason } ↔
      (s.cnx ≠ 0 ∧ s.controlStream ≠ 0) ∧ reason.length < 256 ∧ (0 : UInt8) ∉ reason := by
  unfold onClose
  by_cases hs : s.cnx = 0 ∨ s.controlStream = 0
  · rw [if_pos hs]
    exact iff_of_false (by simp) fun h => hs.elim h.1.1 h.1.2
  rw [if_neg hs, ← not_or, and_iff_right hs]
  rw [Option.some.injEq, CloseCall.mk.injEq, and_iff_right rfl]
  constructor
  · intro h
    cases hf : field 256 (reason.take (reason.length % 2 ^ 32)) 0
      (reason.take (reason.length % 2 ^ 32)).length with
    | none =>
      rw [hf, Option.getD_none] at h
      simp [← h]
    | some message =>
      rw [hf, Option.getD_some] at h
      obtain ⟨-, hlt, hle, hnul⟩ := length_lt_of_field hf
      subst h
      rw [List.length_take] at hlt hle
      exact ⟨by omega, hnul⟩
  · rintro ⟨hlt, hnul⟩
    rw [take_eq_self (by omega)]
    by_cases hreason : reason = []
    · simp [hreason, field]
    · rw [field, if_pos ⟨List.length_pos_of_ne_nil hreason, hlt, by omega⟩]
      simp [cString_eq_self hnul]

/-- How a command was built of its three texts. -/
structure OpenCommand.Built (c : OpenCommand) (sni path protocols : List UInt8) : Prop where
  sniLen : c.params.sniLen = sni.length % 2 ^ 32 % 2 ^ 16
  pathLen : c.params.pathLen = path.length % 2 ^ 32 % 2 ^ 16
  protocolsLen : c.params.protocolsLen = protocols.length % 2 ^ 32 % 2 ^ 16
  raw : c.raw = sni.take (sni.length % 2 ^ 32) ++ path.take (path.length % 2 ^ 32) ++
    protocols.take (protocols.length % 2 ^ 32)

namespace OpenCommand.Built

variable (hb : c.Built bSni bPath bProtocols)
include hb

/-- The payload holds as many bytes as the two length fields say. -/
theorem le_raw_length : c.params.sniLen + c.params.pathLen ≤ c.raw.length := by
  rw [hb.sniLen, hb.pathLen, hb.raw]
  simp only [List.length_append, List.length_take]
  omega

theorem sni_none_iff : field 256 c.raw 0 c.params.sniLen = none ↔ ¬ LengthTaken 256 bSni := by
  have hlen := hb.le_raw_length
  have hcut : c.params.sniLen = bSni.length % 2 ^ 16 := by rw [hb.sniLen]; omega
  rw [field_eq_none_iff, LengthTaken, ← hcut]
  omega

theorem path_none_iff :
    field 1024 c.raw c.params.sniLen c.params.pathLen = none ↔ ¬ LengthTaken 1024 bPath := by
  have hlen := hb.le_raw_length
  have hcut : c.params.pathLen = bPath.length % 2 ^ 16 := by rw [hb.pathLen]; omega
  rw [field_eq_none_iff, LengthTaken, ← hcut]
  omega

theorem sni_some_iff :
    field 256 c.raw 0 c.params.sniLen = some bSni ↔ 0 < bSni.length ∧ bSni.length < 256 ∧
    (0 : UInt8) ∉ bSni := by
  rw [hb.sniLen]
  refine field_eq_some_iff
    (bPath.take (bPath.length % 2 ^ 32) ++ bProtocols.take (bProtocols.length % 2 ^ 32))
    (by decide) fun hlt => ?_
  rw [hb.raw, List.drop_zero, take_eq_self (by omega), List.append_assoc]

theorem path_some_iff (hsni : bSni.length < 256) :
    field 1024 c.raw c.params.sniLen c.params.pathLen = some bPath ↔
      0 < bPath.length ∧ bPath.length < 1024 ∧ (0 : UInt8) ∉ bPath := by
  have hoff : c.params.sniLen = bSni.length := by rw [hb.sniLen]; omega
  rw [hoff, hb.pathLen]
  refine field_eq_some_iff (bProtocols.take (bProtocols.length % 2 ^ 32)) (by decide) fun hlt => ?_
  rw [hb.raw, take_eq_self (by omega), take_eq_self (by omega), List.append_assoc, List.drop_left]

theorem protocols_iff (hsni : bSni.length < 256) (hpath : bPath.length < 1024) :
    field 256 c.raw (c.params.sniLen + c.params.pathLen) c.params.protocolsLen =
    textArg bProtocols ↔
      bProtocols.length < 256 ∧ (0 : UInt8) ∉ bProtocols := by
  have hoff : c.params.sniLen + c.params.pathLen = (bSni ++ bPath).length := by
    rw [hb.sniLen, hb.pathLen, List.length_append]
    omega
  rw [hoff, hb.protocolsLen]
  refine field_eq_textArg_iff [] (by decide) (by decide) fun hlt => ?_
  rw [hb.raw, take_eq_self (by omega), take_eq_self (by omega), take_eq_self (by omega),
    List.drop_left,
    List.append_nil]

end OpenCommand.Built

/-- The call is the one asked for exactly when the texts fit and picowt prepares the connection. -/
theorem onOpen_connects_iff (hb : c.Built bSni bPath bProtocols) (hpath : bPath ≠ []) :
    (onOpen a s c).connects =
    [{ authority := bSni, path := some bPath, protocols := textArg bProtocols }] ↔
      OpenFits bSni bPath bProtocols ∧ a.prepare ≠ none := by
  unfold onOpen
  dsimp only
  constructor
  · intro h
    cases hs : field 256 c.raw 0 c.params.sniLen with
    | none => simp [hs] at h
    | some sniBuf =>
    cases hp : field 1024 c.raw c.params.sniLen c.params.pathLen with
    | none => simp [hs, hp] at h
    | some pathBuf =>
    cases ha : a.prepare with
    | none => simp [hs, hp, ha] at h
    | some made =>
    simp only [hs, hp, ha, List.cons.injEq, and_true, ConnectCall.mk.injEq, Option.some.injEq] at h
    obtain ⟨rfl, rfl, hq⟩ := h
    obtain ⟨hpos, hlt, hnul⟩ := hb.sni_some_iff.1 hs
    obtain ⟨-, hplt, hpnul⟩ := (hb.path_some_iff hlt).1 hp
    obtain ⟨hqlt, hqnul⟩ := (hb.protocols_iff hlt hplt).1 hq
    exact ⟨⟨hpos, hlt, hnul, hplt, hpnul, hqlt, hqnul⟩, by simp⟩
  · rintro ⟨h, hprep⟩
    obtain ⟨made, hmade⟩ := Option.ne_none_iff_exists'.1 hprep
    have hs := hb.sni_some_iff.2 ⟨h.sni_pos, h.sni_length, h.sni_nul⟩
    have hp := (hb.path_some_iff h.sni_length).2
      ⟨List.length_pos_of_ne_nil hpath, h.path_length, h.path_nul⟩
    have hq := (hb.protocols_iff h.sni_length h.path_length).2 ⟨h.protocols_length, h.protocols_nul⟩
    simp [hs, hp, hq, hmade]

theorem refused_iff {streamId code : ℕ} :
    (∃ ev ∈ a.refused streamId code, ev.evtType = .wtSessionRefused) ↔ a.rxPushes := by
  unfold OpenAnswers.refused
  split <;> simp [*]

/-- The session is refused exactly for a length field or a call that fails. -/
theorem onOpen_refused_iff (hb : c.Built bSni bPath bProtocols) :
    (∃ ev ∈ (onOpen a s c).rx, ev.evtType = .wtSessionRefused) ↔ a.Refuses bSni bPath ∧
    a.rxPushes := by
  unfold onOpen OpenAnswers.Refuses
  dsimp only
  rw [← hb.sni_none_iff, ← hb.path_none_iff]
  cases hs : field 256 c.raw 0 c.params.sniLen with
  | none => simpa [hs] using refused_iff
  | some sniBuf =>
  cases hp : field 1024 c.raw c.params.sniLen c.params.pathLen with
  | none => simpa [hs, hp] using refused_iff
  | some pathBuf =>
  cases ha : a.prepare with
  | none => simpa [hs, hp, ha] using refused_iff
  | some made =>
    by_cases hrc : a.rc = 0
    · simp [hrc]
    · simpa [hs, hp, ha, hrc] using refused_iff

theorem pathBytes_ne_nil : pathBytes path ≠ [] := by
  unfold pathBytes
  split
  · decide
  · rename_i hpath
    rwa [Ne, encode_eq_nil_iff]

/-- The size of the payload of a `TX_WT_OPEN` wraps. -/
def OpenWraps (sni path protocols : List UInt8) : Prop :=
  2 ^ 32 ≤ sizeofOpenParams + sni.length % 2 ^ 32 + path.length % 2 ^ 32 + protocols.length % 2 ^ 32

instance (sni path protocols : List UInt8) : Decidable (OpenWraps sni path protocols) :=
  inferInstanceAs (Decidable (_ ≤ _))

/-- An open that is accepted hands its texts to picowt, or is refused, exactly if the payload's size
has not wrapped and either the worker refuses it for the length of its name or path, or for a call
that fails, or all three texts fit; a close that is accepted hands on its reason exactly if the
session is connected and the reason fits. -/
theorem open_close_carry :
    (pushOpen inetPton pushes host port path sni wtProtocols connectProtocol ≠ .raised →
      ((pushOpen inetPton pushes host port path sni wtProtocols connectProtocol).Opens a s
      (encode sni)
          (pathBytes path) (encode wtProtocols) ↔
        ¬ OpenWraps (encode sni) (pathBytes path) (encode wtProtocols) ∧
          (OpenFits (encode sni) (pathBytes path) (encode wtProtocols) ∧ a.prepare ≠ none ∨
            a.Refuses (encode sni) (pathBytes path) ∧ a.rxPushes))) ∧
      (pushClose pushes errorCode reason ≠ .raised →
        ((pushClose pushes errorCode reason).Closes rc s errorCode reason ↔
          (s.cnx ≠ 0 ∧ s.controlStream ≠ 0) ∧ reason.length < 256 ∧ (0 : UInt8) ∉ reason)) := by
  refine ⟨fun hacc => ?_, fun hacc => ?_⟩
  · generalize hcall : pushOpen inetPton pushes host port path sni wtProtocols connectProtocol =
      p at hacc ⊢
    unfold pushOpen at hcall
    dsimp only at hcall
    split at hcall
    · exact absurd hcall.symm hacc
    split at hcall
    · rename_i hwraps
      subst hcall
      exact iff_of_false id fun h => h.1 hwraps
    rename_i hwraps
    split at hcall
    · exact absurd hcall.symm hacc
    subst hcall
    have hno : ¬ OpenWraps (encode sni) (pathBytes path) (encode wtProtocols) := hwraps
    rw [and_iff_right hno]
    exact or_congr (onOpen_connects_iff ⟨rfl, rfl, rfl, rfl⟩ pathBytes_ne_nil)
      (onOpen_refused_iff ⟨rfl, rfl, rfl, rfl⟩)
  · cases pushes
    · exact absurd rfl hacc
    · exact onClose_iff

theorem open_close_carry_moq :
    (pushOpen loopbackPton true "127.0.0.1" 4433 "/moq" "localhost" "moq-00" 0).Opens
        { prepare := some ⟨1, 2, 3, 0⟩ } { cnx := 1, controlStream := 3 } (encode "localhost")
        (encode "/moq")
        (encode "moq-00") ∧
      (pushClose true 7 [98, 121, 101]).Closes 0 { cnx := 1, controlStream := 3 } 7
        [98, 121, 101] :=
  have h := @open_close_carry loopbackPton true "127.0.0.1" "/moq" "localhost" "moq-00" 4433 0
    { prepare := some ⟨1, 2, 3, 0⟩ } { cnx := 1, controlStream := 3 } 7 [98, 121, 101] 0
  ⟨(h.1 (by decide)).2
      ⟨by decide, .inl ⟨⟨by decide, by decide, by decide, by decide, by decide, by decide, by decide⟩, by decide⟩⟩,
    (h.2 (by decide)).2 ⟨by decide, by decide, by decide⟩⟩

/-- 256 bytes of subprotocols. -/
def longProtocols : String := String.ofList (List.replicate 256 'a')

/-- The session is opened without its subprotocols. -/
theorem open_close_carry_longProtocols :
    ¬ (pushOpen loopbackPton true "127.0.0.1" 4433 "/moq" "localhost" longProtocols 0).Opens
        { prepare := some ⟨1, 2, 3, 0⟩ } {} (encode "localhost") (pathBytes "/moq")
        (encode longProtocols) := by
  decide +kernel

end Carries

end Aiopquic
