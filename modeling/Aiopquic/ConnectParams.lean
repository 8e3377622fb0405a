import Aiopquic.StreamCb
import Mathlib.Data.List.TakeWhile

/-!
# The parameters of `TX_CONNECT` (`_transport.pyx`, `callback.h`)

`create_client_connection` writes a header, the server name and the ALPN into one payload, with the
two lengths cut to 16 bits. The worker reads each field back into a buffer of fixed size, and leaves
out a field that does not fit. It hands the fields to picoquic as C strings.
-/

namespace Aiopquic

/-! ## Texts and addresses -/

/-- `str.encode()`. -/
def encode (s : String) : List UInt8 := s.toByteArray.data.toList

/-- `s or default` of an optional `str`. -/
def textOr (s : Option String) (default : String) : String :=
  match s with
  | some s => if s = "" then default else s
  | none => default

/-- What C reads of bytes that end with a NUL. -/
def cString (bytes : List UInt8) : List UInt8 := bytes.takeWhile (· ≠ 0)

inductive AddressFamily
  | inet | inet6
  deriving DecidableEq, Repr

/-- `inet_pton`: the bytes of an address, nothing for a text that is none. -/
abbrev InetPton := AddressFamily → List UInt8 → Option (List UInt8)

/-- `struct sockaddr_storage`. -/
structure SockAddr where
  family : AddressFamily
  addr : List UInt8
  port : ℤ
  scopeId : ℕ
  deriving DecidableEq, Repr

/-- `_fill_sockaddr`; nothing where it raises. -/
def fillSockaddr (inetPton : InetPton) (host : String) (port : Int32) : Option SockAddr :=
  let bHost := cString (encode host)
  match inetPton .inet bHost with
  | some addr => some { family := .inet, addr, port := port.toInt % 2 ^ 16, scopeId := 0 }
  | none =>
    match inetPton .inet6 bHost with
    | some addr => some { family := .inet6, addr, port := port.toInt % 2 ^ 16, scopeId := 0 }
    | none => none

/-- How a call ends that posts a command to the worker. In `overrun` the payload's size has wrapped
and `memcpy` writes behind it. -/
inductive Posting (α : Type)
  | raised
  | overrun
  | posted (command : α)
  deriving DecidableEq

/-- The worker's copy of a field: `len` bytes at `offset` behind the header, if they fit a buffer of
`size` bytes with the NUL. -/
def field (size : ℕ) (raw : List UInt8) (offset len : ℕ) : Option (List UInt8) :=
  if 0 < len ∧ len < size ∧ offset + len ≤ raw.length
    then some (cString ((raw.drop offset).take len)) else none

theorem encode_eq_nil_iff {s : String} : encode s = [] ↔ s = "" := by
  rw [← String.utf8ByteSize_eq_zero_iff, ← String.size_toByteArray, encode, Array.toList_eq_nil_iff,
    ← Array.size_eq_zero_iff]
  rfl

/-- The text of an argument that may be left out: none if it is empty. -/
def textArg (bytes : List UInt8) : Option (List UInt8) := if bytes = [] then none else some bytes

section Fields

variable {size offset len : ℕ} {raw bytes : List UInt8}

theorem cString_eq_self (h : (0 : UInt8) ∉ bytes) : cString bytes = bytes :=
  List.takeWhile_eq_self_iff.2 fun b hb => by
    have hne : b ≠ 0 := fun h0 => h (h0 ▸ hb)
    simpa using hne

theorem zero_notMem_cString : (0 : UInt8) ∉ cString bytes := by
  intro h
  have := List.mem_takeWhile_imp h
  simp at this

theorem field_eq_none_iff :
    field size raw offset len = none ↔ ¬ (0 < len ∧ len < size ∧ offset + len ≤ raw.length) := by
  simp [field]

/-- What a field holds fits the buffer and has no NUL. -/
theorem length_lt_of_field (h : field size raw offset len = some bytes) :
    0 < len ∧ len < size ∧ bytes.length ≤ len ∧ (0 : UInt8) ∉ bytes := by
  unfold field at h
  split at h
  case isTrue hfits =>
    obtain rfl := Option.some.inj h
    refine ⟨hfits.1, hfits.2.1, ?_, zero_notMem_cString⟩
    calc (cString ((raw.drop offset).take len)).length
        ≤ ((raw.drop offset).take len).length := (List.takeWhile_prefix _).length_le
      _ ≤ len := List.length_take_le ..
  case isFalse => cases h

/-- A field is read back exactly if it fits the buffer and has no NUL. -/
theorem field_eq_some_iff (rest : List UInt8) (hsize : size ≤ 2 ^ 16)
    (hraw : bytes.length < size → raw.drop offset = bytes ++ rest) :
    field size raw offset (bytes.length % 2 ^ 32 % 2 ^ 16) = some bytes ↔
      0 < bytes.length ∧ bytes.length < size ∧ (0 : UInt8) ∉ bytes := by
  constructor
  · intro h
    obtain ⟨hpos, hlt, hle, hnul⟩ := length_lt_of_field h
    exact ⟨by omega, by omega, hnul⟩
  · rintro ⟨hpos, hlt, hnul⟩
    have hcut : bytes.length % 2 ^ 32 % 2 ^ 16 = bytes.length := by omega
    have hlen : raw.length - offset = bytes.length + rest.length := by
      rw [← List.length_drop, hraw hlt, List.length_append]
    rw [hcut, field, if_pos ⟨hpos, hlt, by omega⟩, hraw hlt, List.take_left, cString_eq_self hnul]

/-- The same of an argument that may be left out. -/
theorem field_eq_textArg_iff (rest : List UInt8) (hsize : size ≤ 2 ^ 16) (h0 : 0 < size)
    (hraw : bytes.length < size → raw.drop offset = bytes ++ rest) :
    field size raw offset (bytes.length % 2 ^ 32 % 2 ^ 16) = textArg bytes ↔
      bytes.length < size ∧ (0 : UInt8) ∉ bytes := by
  by_cases hbytes : bytes = []
  · simp [hbytes, textArg, field, h0]
  · rw [textArg, if_neg hbytes, field_eq_some_iff rest hsize hraw]
    exact and_iff_right (List.length_pos_of_ne_nil hbytes)

/-- The bytes of a field whose length has not wrapped. -/
theorem take_eq_self (h : bytes.length < 2 ^ 32) : bytes.take (bytes.length % 2 ^ 32) = bytes := by
  rw [Nat.mod_eq_of_lt h, List.take_length]

end Fields

/-! ## The encoder -/

/-- `sizeof(aiopquic_connect_params_t)`. -/
def sizeofConnectParams : ℕ := 136

/-- `aiopquic_connect_params_t`. -/
structure ConnectParams where
  addr : SockAddr
  desiredVersion : UInt32
  sniLen : ℕ
  alpnLen : ℕ
  deriving DecidableEq, Repr

/-- A `TX_CONNECT` entry: the header at the start of its payload, and the bytes behind it. -/
structure ConnectCommand where
  params : ConnectParams
  raw : List UInt8
  deriving DecidableEq, Repr

/-- The transport as `create_client_connection` finds it: whether `spsc_ring_push` has a slot and
memory. -/
structure TransportState where
  started : Bool := true
  pushes : Bool := true

section Encoder

variable (inetPton : InetPton) (t : TransportState) (host : String) (port : Int32)
    (sni alpn : Option String)
  (desiredVersion : UInt32)

/-- The server name that a call asks for. -/
def sniBytes (host : String) (sni : Option String) : List UInt8 := encode (textOr sni host)

/-- The ALPN that a call asks for, empty for none. -/
def alpnBytes (alpn : Option String) : List UInt8 := encode (textOr alpn "")

/-- `create_client_connection`. -/
def createClientConnection : Posting ConnectCommand :=
  if t.started = false then .raised
  else
    let bSni := sniBytes host sni
    let bAlpn := alpnBytes alpn
    let sniLen := bSni.length % 2 ^ 32
    let alpnLen := bAlpn.length % 2 ^ 32
    match fillSockaddr inetPton host port with
    | none => .raised
    | some addr =>
      -- `total` is a `uint32_t`.
      if 2 ^ 32 ≤ sizeofConnectParams + sniLen + alpnLen then .overrun
      else if t.pushes = false then .raised
      else .posted
        { params := { addr, desiredVersion, sniLen := sniLen % 2 ^ 16, alpnLen := alpnLen % 2 ^ 16 }
          raw := bSni.take sniLen ++ bAlpn.take alpnLen }

end Encoder

/-! ## The worker -/

/-- What picoquic and the RX queue do while the worker handles a `TX_CONNECT`: the pointer that
`picoquic_create_cnx` returns, `0` for `NULL`, the result of `picoquic_start_client_cnx`, the
callbacks that starting or deleting the connection makes, and whether `aiopquic_rx_push` has
memory. -/
structure ConnectAnswers where
  createCnx : ℕ
  startClientCnx : ℤ := 0
  callbacks : List Callback := []
  rxPushes : Bool := true

/-- The arguments a connection is created with. -/
structure ClientCnx where
  cnx : ℕ
  addr : SockAddr
  sni : Option (List UInt8)
  alpn : Option (List UInt8)
  desiredVersion : UInt32
  deriving DecidableEq, Repr

/-- What a `TX_CONNECT` does: the connection it creates, whether that one stays, and the events it
queues. -/
structure ConnectEffect where
  created : Option ClientCnx := none
  stays : Bool := false
  rx : List RawEvent := []

/-- `aiopquic_rx_push`. -/
def ConnectAnswers.rxPush (a : ConnectAnswers) (evs : List RawEvent) : List RawEvent :=
  if a.rxPushes then evs else []

namespace ConnectCommand

variable (c : ConnectCommand)

/-- `sni_ptr`. -/
def sniPtr : Option (List UInt8) := field 256 c.raw 0 c.params.sniLen

/-- `offset`, which moves only behind a name that is taken. -/
def alpnOffset : ℕ := if c.sniPtr.isSome then c.params.sniLen else 0

/-- `alpn_ptr`. -/
def alpnPtr : Option (List UInt8) := field 64 c.raw c.alpnOffset c.params.alpnLen

end ConnectCommand

/-- `aiopquic_loop_cb` on `TX_CONNECT`. -/
def onConnect (a : ConnectAnswers) (c : ConnectCommand) : ConnectEffect :=
  if a.createCnx = 0 then {}
  else
    let newCnx : ClientCnx :=
      { cnx := a.createCnx, addr := c.params.addr, sni := c.sniPtr, alpn := c.alpnPtr
        desiredVersion := c.params.desiredVersion }
    let queued := a.rxPush (a.callbacks.filterMap (streamCb a.createCnx))
    -- A connection that does not start is deleted.
    if a.startClientCnx ≠ 0 then { created := some newCnx, rx := queued }
    else
      { created := some newCnx
        stays := true
        rx := queued ++ a.rxPush [{ evtType := .almostReady, cnxPtr := a.createCnx }] }

/-! ## What a connect carries -/

/-- A connection is only created with the name and the ALPN asked for. Asyncio gets it, or hears of
the failure. -/
structure ConnectEffect.Carries (r : ConnectEffect) (sni alpn : List UInt8) : Prop where
  exact : ∀ c ∈ r.created, c.sni = some sni ∧ c.alpn = textArg alpn
  answers : (∃ c ∈ r.created, r.stays ∧ ∃ ev ∈ r.rx, ev.evtType = .almostReady ∧
    ev.cnxPtr = c.cnx) ∨
    ∃ ev ∈ r.rx, ev.isClose

instance ConnectEffect.decidableCarries (r : ConnectEffect) (sni alpn : List UInt8) :
    Decidable (r.Carries sni alpn) :=
  decidable_of_iff (_ ∧ _) ⟨fun h => ⟨h.1, h.2⟩, fun h => ⟨h.exact, h.answers⟩⟩

/-- The same of a call. One that raises has not accepted its arguments. -/
def Posting.Carries (p : Posting ConnectCommand) (a : ConnectAnswers) (sni alpn : List UInt8) :
    Prop :=
  match p with
  | .raised => True
  | .overrun => False
  | .posted c => (onConnect a c).Carries sni alpn

instance Posting.decidableCarries (p : Posting ConnectCommand) (a : ConnectAnswers)
    (sni alpn : List UInt8) :
    Decidable (p.Carries a sni alpn) :=
  match p with
  | .raised => isTrue trivial
  | .overrun => isFalse id
  | .posted c => inferInstanceAs (Decidable ((onConnect a c).Carries sni alpn))

/-- The texts fit the worker's buffers and have no NUL. -/
structure ConnectFits (sni alpn : List UInt8) : Prop where
  sni_length : sni.length < 256
  sni_nul : (0 : UInt8) ∉ sni
  alpn_length : alpn.length < 64
  alpn_nul : (0 : UInt8) ∉ alpn

/-- picoquic makes and starts the connection, or says that it closed, and the RX queue takes the
event. -/
def ConnectAnswers.Answers (a : ConnectAnswers) : Prop :=
  a.createCnx ≠ 0 ∧ a.rxPushes ∧ (a.startClientCnx = 0 ∨ ∃ cb ∈ a.callbacks, cb.closes)

instance ConnectAnswers.decidableAnswers (a : ConnectAnswers) : Decidable a.Answers :=
  inferInstanceAs (Decidable (_ ∧ _))

section Carries

variable {inetPton : InetPton} {t : TransportState} {host : String} {port : Int32}
    {sni alpn : Option String}
  {desiredVersion : UInt32} {a : ConnectAnswers} {c : ConnectCommand} {bSni bAlpn : List UInt8}

/-- A close callback always queues its event. -/
theorem exists_close_iff (cnx : ℕ) {cbs : List Callback} :
    (∃ ev ∈ cbs.filterMap (streamCb cnx), ev.isClose) ↔ ∃ cb ∈ cbs, cb.closes := by
  constructor
  · rintro ⟨ev, hev, hcl⟩
    obtain ⟨cb, hcb, hsome⟩ := List.mem_filterMap.1 hev
    exact ⟨cb, hcb, (streamCb_isClose hsome).symm.trans hcl⟩
  · rintro ⟨cb, hcb, hcl⟩
    obtain ⟨ev, hsome⟩ : ∃ ev, streamCb cnx cb = some ev := by
      refine Option.ne_none_iff_exists'.1 fun hnone => ?_
      have hsilent := (streamCb_eq_none_iff cnx cb).1 hnone
      have hcase : cb.event = .close ∨ cb.event = .applicationClose := by
        simpa [Callback.closes] using hcl
      obtain h | h := hcase <;>
        simp [Callback.silent, Callback.onStream, Callback.hasPayload, h] at hsilent
    exact ⟨ev, List.mem_filterMap.2 ⟨cb, hcb, hsome⟩, (streamCb_isClose hsome).trans hcl⟩

/-- Asyncio is answered exactly when picoquic and the RX queue answer. -/
theorem onConnect_answers :
    ((∃ c' ∈ (onConnect a c).created, (onConnect a c).stays ∧
        ∃ ev ∈ (onConnect a c).rx, ev.evtType = .almostReady ∧ ev.cnxPtr = c'.cnx) ∨
      ∃ ev ∈ (onConnect a c).rx, ev.isClose) ↔ a.Answers := by
  unfold onConnect ConnectAnswers.Answers
  by_cases hcreate : a.createCnx = 0
  · simp [hcreate]
  by_cases hstart : a.startClientCnx = 0 <;> by_cases hpush : a.rxPushes
  · simp [hcreate, hpush, hstart, ConnectAnswers.rxPush]
  · simp [hcreate, hpush, hstart, ConnectAnswers.rxPush]
  · simp [hcreate, hpush, hstart, ConnectAnswers.rxPush, ← exists_close_iff a.createCnx]
  · simp [hcreate, hpush, hstart, ConnectAnswers.rxPush]

/-- The fields that the worker reads of a command built of `bSni` and `bAlpn`. -/
theorem ptrs_iff (hsni : bSni ≠ []) (hsniLen : c.params.sniLen = bSni.length % 2 ^ 32 % 2 ^ 16)
    (halpnLen : c.params.alpnLen = bAlpn.length % 2 ^ 32 % 2 ^ 16)
    (hraw : c.raw = bSni.take (bSni.length % 2 ^ 32) ++ bAlpn.take (bAlpn.length % 2 ^ 32)) :
    (c.sniPtr = some bSni ∧ c.alpnPtr = textArg bAlpn) ↔ ConnectFits bSni bAlpn := by
  have hsniIff : c.sniPtr = some bSni ↔ 0 < bSni.length ∧ bSni.length < 256 ∧
    (0 : UInt8) ∉ bSni := by
    rw [ConnectCommand.sniPtr, hsniLen]
    refine field_eq_some_iff (bAlpn.take (bAlpn.length % 2 ^ 32)) (by decide) fun hlt => ?_
    rw [hraw, List.drop_zero, take_eq_self (by omega)]
  have halpnIff (hs : c.sniPtr = some bSni) :
      c.alpnPtr = textArg bAlpn ↔ bAlpn.length < 64 ∧ (0 : UInt8) ∉ bAlpn := by
    have hlt := (hsniIff.1 hs).2.1
    have hoff : c.alpnOffset = bSni.length := by
      rw [ConnectCommand.alpnOffset, hs, Option.isSome_some, if_pos rfl, hsniLen]
      omega
    rw [ConnectCommand.alpnPtr, halpnLen, hoff]
    refine field_eq_textArg_iff [] (by decide) (by decide) fun halpn => ?_
    rw [hraw, take_eq_self (by omega), take_eq_self (by omega), List.drop_left, List.append_nil]
  constructor
  · rintro ⟨hs, ha⟩
    obtain ⟨-, hsniLt, hsniNul⟩ := hsniIff.1 hs
    obtain ⟨halpnLt, halpnNul⟩ := (halpnIff hs).1 ha
    exact ⟨hsniLt, hsniNul, halpnLt, halpnNul⟩
  · intro h
    have hs := hsniIff.2 ⟨List.length_pos_of_ne_nil hsni, h.sni_length, h.sni_nul⟩
    exact ⟨hs, (halpnIff hs).2 ⟨h.alpn_length, h.alpn_nul⟩⟩

theorem onConnect_exact (hcreate : a.createCnx ≠ 0) {p : ClientCnx → Prop} :
    (∀ c' ∈ (onConnect a c).created, p c') ↔
      p { cnx := a.createCnx, addr := c.params.addr, sni := c.sniPtr, alpn := c.alpnPtr
          desiredVersion := c.params.desiredVersion } := by
  unfold onConnect
  rw [if_neg hcreate]
  split <;> simp

/-- The worker does right by a command exactly when its texts fit and its calls are answered. -/
theorem onConnect_carries (hsni : bSni ≠ [])
    (hsniLen : c.params.sniLen = bSni.length % 2 ^ 32 % 2 ^ 16)
    (halpnLen : c.params.alpnLen = bAlpn.length % 2 ^ 32 % 2 ^ 16)
    (hraw : c.raw = bSni.take (bSni.length % 2 ^ 32) ++ bAlpn.take (bAlpn.length % 2 ^ 32)) :
    (onConnect a c).Carries bSni bAlpn ↔ ConnectFits bSni bAlpn ∧ a.Answers := by
  have hptrs := ptrs_iff hsni hsniLen halpnLen hraw
  constructor
  · rintro ⟨hexact, hans⟩
    have ha : a.Answers := onConnect_answers.1 hans
    exact ⟨hptrs.1 ((onConnect_exact ha.1).1 hexact), ha⟩
  · rintro ⟨hfits, ha⟩
    exact ⟨(onConnect_exact ha.1).2 (hptrs.2 hfits), onConnect_answers.2 ha⟩

/-- A name is never empty: `inet_pton` knows no address without text. -/
theorem sniBytes_ne_nil (hpton : ∀ family, inetPton family [] = none) {addr : SockAddr}
    (haddr : fillSockaddr inetPton host port = some addr) : sniBytes host sni ≠ [] := by
  have hhost : host ≠ "" := by
    rintro rfl
    simp [fillSockaddr, encode_eq_nil_iff.2 rfl, cString, hpton] at haddr
  rw [sniBytes, Ne, encode_eq_nil_iff]
  cases sni with
  | none => exact hhost
  | some s =>
    by_cases hs : s = ""
    · simp [textOr, hs, hhost]
    · simp [textOr, hs]

/-- `TX_CONNECT` carries the arguments of a call that is accepted exactly when the texts fit the
worker's buffers and its calls are answered. -/
theorem connect_carries (hpton : ∀ family, inetPton family [] = none)
    (hacc : createClientConnection inetPton t host port sni alpn desiredVersion ≠ .raised) :
    (createClientConnection inetPton t host port sni alpn desiredVersion).Carries a
    (sniBytes host sni)
        (alpnBytes alpn) ↔
      ConnectFits (sniBytes host sni) (alpnBytes alpn) ∧ a.Answers := by
  generalize hcall : createClientConnection inetPton t host port sni alpn desiredVersion =
    p at hacc ⊢
  unfold createClientConnection at hcall
  dsimp only at hcall
  split at hcall
  · exact absurd hcall.symm hacc
  split at hcall
  · exact absurd hcall.symm hacc
  rename_i addr haddr
  split at hcall
  case isTrue hwrap =>
    subst hcall
    -- A payload that wraps has a text of four gigabytes.
    refine iff_of_false id fun h => ?_
    have := h.1.sni_length
    have := h.1.alpn_length
    simp only [sizeofConnectParams] at hwrap
    omega
  case isFalse =>
    split at hcall
    · exact absurd hcall.symm hacc
    · subst hcall
      exact onConnect_carries (sniBytes_ne_nil hpton haddr) rfl rfl rfl

/-- A resolver for the two examples. -/
def loopbackPton : InetPton := fun family text =>
  if family = .inet ∧ text = encode "127.0.0.1" then some [127, 0, 0, 1] else none

theorem connect_carries_localhost :
    (createClientConnection loopbackPton {} "127.0.0.1" 4433 (some "localhost")
    (some "moq-00") 0).Carries
        { createCnx := 1 } (encode "localhost") (encode "moq-00") :=
  (connect_carries (by intro family; cases family <;> decide) (by decide)).2
    ⟨⟨by decide, by decide, by decide, by decide⟩, by decide⟩

/-- A server name of 256 bytes. -/
def longName : String := String.ofList (List.replicate 256 'a')

/-- A connection without a server name, for a call that asked for one. -/
theorem connect_carries_longName :
    ¬ (createClientConnection loopbackPton {} "127.0.0.1" 4433 (some longName)
    (some "moq-00") 0).Carries
        { createCnx := 1 } (sniBytes "127.0.0.1" (some longName)) (alpnBytes (some "moq-00")) := by
  decide +kernel

end Carries

end Aiopquic
