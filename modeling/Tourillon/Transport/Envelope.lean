import Tourillon.Library.Inflow
import Tourillon.Schema.Codec

namespace Tourillon

open Endian Prog

inductive EnvelopeError where
  | valueError (message : String)
  | structError
  | protocolError (message : String)
  | eofError
  deriving DecidableEq, Repr

structure UUID where
  int : Nat
  fits : int < 256 ^ 16
  deriving DecidableEq

namespace UUID

def bytes (u : UUID) : Bytes := toBE 16 u.int

def ofBytes (b : Bytes) : Except EnvelopeError UUID :=
  if h : b.length = 16 then .ok ⟨ofBE b, h ▸ ofBE_lt b⟩
  else .error (.valueError "bytes is not a 16-char string")

theorem length_bytes (u : UUID) : u.bytes.length = 16 := length_toBE 16 u.int

theorem ofBytes_bytes (u : UUID) : ofBytes u.bytes = .ok u := by
  rw [ofBytes, dif_pos u.length_bytes]
  obtain ⟨int, fits⟩ := u
  simp only [bytes, ofBE_toBE fits]

end UUID

structure EnvelopeFields where
  protoVersion : Int
  schemaId : Int
  mode : Int
  correlationId : UUID
  kind : String
  payload : Bytes
  context : Bytes := []
  deriving DecidableEq

def envelopeHeaderLen : Nat := 32

def maxEnvelopePayload : Nat := 18 * 1024 * 1024

def maxKindLen : Nat := 255

def maxEnvelopeContext : Nat := 32

def modeRpc : Int := 0

def modeFnf : Int := 1

def kindLetter (c : Char) : Bool := 'a' ≤ c && c ≤ 'z'

def kindLabel : List Char → Bool
  | [] => false
  | c :: rest => kindLetter c && rest.all fun c => kindLetter c || ('0' ≤ c && c ≤ '9')

def kindPattern (kind : String) : Bool :=
  match kind.toList.splitOn '.' with
  | first :: action :: rest => (first :: action :: rest).all kindLabel
  | _ => false

namespace EnvelopeFields

variable (e : EnvelopeFields)

def validateScalars : Except EnvelopeError Unit :=
  if ¬ (0 ≤ e.protoVersion ∧ e.protoVersion ≤ 255) then
    .error (.valueError "proto_version must fit in one byte")
  else if ¬ (0 ≤ e.schemaId ∧ e.schemaId ≤ 65535) then
    .error (.valueError "schema_id must fit in two bytes")
  else if e.mode ∉ [modeRpc, modeFnf] then
    .error (.valueError "mode must be 0 (RPC) or 1 (FNF)")
  else if e.correlationId.int = 0 then
    .error (.valueError "correlation_id must not be zero")
  else .ok ()

def validatePayload : Except EnvelopeError Unit :=
  if maxEnvelopePayload < e.payload.length then .error (.valueError "payload exceeds MAX_PAYLOAD")
  else if maxEnvelopeContext < e.context.length then
    .error (.valueError "context exceeds MAX_CONTEXT")
  else .ok ()

def validateKind : Except EnvelopeError Unit :=
  if ¬ (1 ≤ (encodeUtf8 e.kind).length ∧ (encodeUtf8 e.kind).length ≤ maxKindLen) then
    .error (.valueError "kind length must be between 1 and MAX_KIND_LEN")
  else if ¬ kindPattern e.kind then
    .error (.valueError "kind must be lowercase and follow domain.action")
  else .ok ()

def validate : Except EnvelopeError Unit := do
  e.validateScalars
  e.validatePayload
  e.validateKind

end EnvelopeFields

structure Envelope extends EnvelopeFields where
  valid : toEnvelopeFields.validate = .ok ()
  deriving DecidableEq

def Envelope.make (fields : EnvelopeFields) : Except EnvelopeError Envelope :=
  match h : fields.validate with
  | .ok () => .ok ⟨fields, h⟩
  | .error e => .error e

theorem Envelope.make_fields (e : Envelope) : Envelope.make e.toEnvelopeFields = .ok e := by
  unfold Envelope.make
  split
  · rfl
  · rename_i hfail
    rw [e.valid] at hfail
    cases hfail

structure Header where
  protoVersion : Int
  schemaId : Int
  mode : Int
  correlation : Bytes
  payloadLen : Int
  kindLen : Int
  contextLen : Int
  reserved : Bytes
  deriving DecidableEq, Repr

namespace Header

def packInt (width : Nat) (n : Int) : Except EnvelopeError Bytes :=
  if 0 ≤ n ∧ n < 256 ^ width then .ok (toBE width n.toNat) else .error .structError

def packBytes (width : Nat) (b : Bytes) : Bytes := (b ++ List.replicate width 0).take width

def pack (h : Header) : Except EnvelopeError Bytes := do
  let protoVersion ← packInt 1 h.protoVersion
  let schemaId ← packInt 2 h.schemaId
  let mode ← packInt 1 h.mode
  let payloadLen ← packInt 4 h.payloadLen
  let kindLen ← packInt 1 h.kindLen
  let contextLen ← packInt 1 h.contextLen
  return protoVersion ++ (schemaId ++ (mode ++ (packBytes 16 h.correlation ++
    (payloadLen ++ (kindLen ++ (contextLen ++ packBytes 6 h.reserved))))))

def unpackFrom (frame : Bytes) : Except EnvelopeError Header :=
  if frame.length < envelopeHeaderLen then .error .structError
  else
    let (protoVersion, frame) := frame.splitAt 1
    let (schemaId, frame) := frame.splitAt 2
    let (mode, frame) := frame.splitAt 1
    let (correlation, frame) := frame.splitAt 16
    let (payloadLen, frame) := frame.splitAt 4
    let (kindLen, frame) := frame.splitAt 1
    let (contextLen, frame) := frame.splitAt 1
    .ok ⟨ofBE protoVersion, ofBE schemaId, ofBE mode, correlation, ofBE payloadLen, ofBE kindLen,
      ofBE contextLen, frame.take 6⟩

def unpack (header : Bytes) : Except EnvelopeError Header :=
  if header.length ≠ envelopeHeaderLen then .error .structError else unpackFrom header

end Header

def checkHeader (mode kindLen contextLen payloadLen maxPayload : Int) : Except EnvelopeError Unit :=
  if mode ∉ [modeRpc, modeFnf] then .error (.protocolError "unsupported mode")
  else if ¬ (1 ≤ kindLen ∧ kindLen ≤ maxKindLen) then .error (.protocolError "invalid kind length")
  else if maxEnvelopeContext < contextLen then .error (.protocolError "context exceeds MAX_CONTEXT")
  else if maxPayload < payloadLen then .error (.protocolError "payload exceeds max_payload")
  else .ok ()

namespace Envelope

def header (e : Envelope) : Header where
  protoVersion := e.protoVersion
  schemaId := e.schemaId
  mode := e.mode
  correlation := e.correlationId.bytes
  payloadLen := e.payload.length
  kindLen := (encodeUtf8 e.kind).length
  contextLen := e.context.length
  reserved := List.replicate 6 0

def toBytes (e : Envelope) : Except EnvelopeError Bytes := do
  let header ← e.header.pack
  return header ++ (encodeUtf8 e.kind ++ (e.context ++ e.payload))

def fromBytes (frame : Bytes) : Except EnvelopeError Envelope := do
  if frame.length < envelopeHeaderLen then
    .error (.protocolError "frame is shorter than envelope header")
  else
    let header ← Header.unpackFrom frame
    checkHeader header.mode header.kindLen header.contextLen header.payloadLen maxEnvelopePayload
    if (frame.length : Int) ≠
        envelopeHeaderLen + header.kindLen + header.contextLen + header.payloadLen then
      .error (.protocolError "frame length does not match envelope header")
    else
      let correlationId ← UUID.ofBytes header.correlation
      if correlationId.int = 0 then .error (.protocolError "correlation_id must not be zero")
      else
        let (kindBytes, frame) := (frame.drop envelopeHeaderLen).splitAt header.kindLen.toNat
        let kind ← (decodeUtf8 kindBytes).mapError fun _ => .protocolError "kind is not valid UTF-8"
        let (context, payload) := frame.splitAt header.contextLen.toNat
        Envelope.make
          { protoVersion := header.protoVersion
            schemaId := header.schemaId
            mode := header.mode
            correlationId
            kind
            payload
            context }

end Envelope

def readEnvelope (maxPayload : Int) : Prog (StreamReader UInt8) EnvelopeError Envelope := do
  let header ← mapError
    (fun partialBytes => if partialBytes = [] then .eofError else .protocolError "truncated envelope header")
    (StreamReader.readExactly envelopeHeaderLen)
  let fields ← lift (Header.unpack header)
  lift (checkHeader fields.mode fields.kindLen fields.contextLen fields.payloadLen maxPayload)
  let body ← mapError (fun _ => .protocolError "truncated envelope body")
    (StreamReader.readExactly (fields.kindLen + fields.contextLen + fields.payloadLen).toNat)
  lift (Envelope.fromBytes (header ++ body))

end Tourillon
