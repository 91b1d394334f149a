import Tourillon.Library.Exceptional
import Tourillon.Library.Framing
import Tourillon.Transport.Envelope

namespace Tourillon

open Endian Exceptional Framing Prog Envelope EnvelopeFields List StreamReader

variable {s : StreamReader UInt8}

namespace Header

variable {width : Nat} {b : Bytes}

structure Fits (h : Header) : Prop where
  proto : 0 ≤ h.protoVersion ∧ h.protoVersion < 256 ^ 1
  schema : 0 ≤ h.schemaId ∧ h.schemaId < 256 ^ 2
  mode : 0 ≤ h.mode ∧ h.mode < 256 ^ 1
  payload : 0 ≤ h.payloadLen ∧ h.payloadLen < 256 ^ 4
  kind : 0 ≤ h.kindLen ∧ h.kindLen < 256 ^ 1
  context : 0 ≤ h.contextLen ∧ h.contextLen < 256 ^ 1

theorem Fits.pack_ok {h : Header} (fits : h.Fits) : ∃ b, h.pack = .ok b := by
  unfold pack packInt
  rw [if_pos fits.proto, if_pos fits.schema, if_pos fits.mode, if_pos fits.payload,
    if_pos fits.kind, if_pos fits.context]
  exact ⟨_, rfl⟩

theorem of_packInt {n : Int} (h : packInt width n = .ok b) : b.length = width ∧ (ofBE b : Int) = n := by
  unfold packInt at h
  split at h
  · rename_i hn
    cases h
    obtain ⟨k, rfl⟩ := Int.eq_ofNat_of_zero_le hn.1
    have hk : k < 256 ^ width := by exact_mod_cast hn.2
    exact ⟨length_toBE _ _, by rw [Int.toNat_natCast, ofBE_toBE hk]⟩
  · cases h

theorem packBytes_of_length (h : b.length = width) : packBytes width b = b := by
  rw [packBytes, ← h, take_left]

theorem unpackFrom_pack {h : Header} (hpack : h.pack = .ok b) (hcorrelation : h.correlation.length = 16)
    (hreserved : h.reserved.length = 6) :
    b.length = envelopeHeaderLen ∧ ∀ rest, unpackFrom (b ++ rest) = .ok h := by
  unfold pack at hpack
  simp only [bind_eq_ok, pure_eq_ok] at hpack
  obtain ⟨proto, hproto, schema, hschema, mode, hmode, payload, hpayload, kind, hkind, context,
    hcontext, rfl⟩ := hpack
  rw [packBytes_of_length hcorrelation, packBytes_of_length hreserved]
  obtain ⟨lproto, hproto⟩ := of_packInt hproto
  obtain ⟨lschema, hschema⟩ := of_packInt hschema
  obtain ⟨lmode, hmode⟩ := of_packInt hmode
  obtain ⟨lpayload, hpayload⟩ := of_packInt hpayload
  obtain ⟨lkind, hkind⟩ := of_packInt hkind
  obtain ⟨lcontext, hcontext⟩ := of_packInt hcontext
  have hlength : (proto ++ (schema ++ (mode ++ (h.correlation ++ (payload ++ (kind ++ (context ++
      h.reserved))))))).length = envelopeHeaderLen := by
    simp only [length_append, lproto, lschema, lmode, lpayload, lkind, lcontext, hcorrelation, hreserved]
    rfl
  refine ⟨hlength, ?_⟩
  intro rest
  rw [unpackFrom, if_neg (by rw [length_append, hlength]; omega)]
  simp only [append_assoc, splitAt_append lproto, splitAt_append lschema, splitAt_append lmode,
    splitAt_append hcorrelation, splitAt_append lpayload, splitAt_append lkind,
    splitAt_append lcontext, take_left' hreserved, hproto, hschema, hmode, hpayload, hkind,
    hcontext]

end Header

structure Envelope.Bounds (e : EnvelopeFields) : Prop where
  proto : 0 ≤ e.protoVersion ∧ e.protoVersion ≤ 255
  schema : 0 ≤ e.schemaId ∧ e.schemaId ≤ 65535
  mode : e.mode ∈ [modeRpc, modeFnf]
  correlation : e.correlationId.int ≠ 0
  payload : e.payload.length ≤ maxEnvelopePayload
  context : e.context.length ≤ maxEnvelopeContext
  kind : 1 ≤ (encodeUtf8 e.kind).length ∧ (encodeUtf8 e.kind).length ≤ maxKindLen

namespace Envelope

variable {e : Envelope} {b : Bytes}

section

variable (e : Envelope)

theorem bounds : Bounds e.toEnvelopeFields := by
  have hvalid := e.valid
  unfold validate validateScalars validatePayload
    validateKind at hvalid
  simp only [bind_eq_ok, refuse_eq_ok, not_not, not_lt] at hvalid
  obtain ⟨_, ⟨hproto, hschema, hmode, hcorrelation, -⟩, _, ⟨hpayload, hcontext, -⟩, hkind, -⟩ := hvalid
  exact ⟨hproto, hschema, hmode, hcorrelation, hpayload, hcontext, hkind⟩

def body : Bytes := encodeUtf8 e.kind ++ (e.context ++ e.payload)

theorem header_fits : e.header.Fits := by
  obtain ⟨⟨hproto0, hproto⟩, ⟨hschema0, hschema⟩, hmode, _, hpayload, hcontext, _, hkind⟩ := e.bounds
  have hmode : 0 ≤ e.mode ∧ e.mode ≤ 1 := by rcases mem_pair.mp hmode with h | h <;> rw [h] <;> decide
  unfold maxEnvelopePayload at hpayload
  unfold maxEnvelopeContext at hcontext
  unfold maxKindLen at hkind
  constructor <;> dsimp only [header] <;> omega

theorem checkHeader_ok {maxPayload : Int} (h : e.payload.length ≤ maxPayload) :
    checkHeader e.header.mode e.header.kindLen e.header.contextLen e.header.payloadLen maxPayload =
      .ok () := by
  obtain ⟨_, _, hmode, _, _, hcontext, hkind0, hkind⟩ := e.bounds
  have hlength : 1 ≤ e.header.kindLen ∧ e.header.kindLen ≤ maxKindLen :=
    ⟨Int.ofNat_le.mpr hkind0, Int.ofNat_le.mpr hkind⟩
  have hcarried : e.header.contextLen ≤ maxEnvelopeContext := Int.ofNat_le.mpr hcontext
  unfold checkHeader
  simp only [refuse_eq_ok, not_not, not_lt]
  exact ⟨hmode, hlength, hcarried, h, trivial⟩

theorem length_body : (e.body.length : Int) = e.header.kindLen + e.header.contextLen + e.header.payloadLen := by
  simp only [body, header, length_append]
  omega

end

theorem header_spec (h : e.header.pack = .ok b) :
    b.length = envelopeHeaderLen ∧ ∀ rest, Header.unpackFrom (b ++ rest) = .ok e.header :=
  Header.unpackFrom_pack h e.correlationId.length_bytes (length_replicate ..)

theorem fromBytes_frame (h : e.header.pack = .ok b) : fromBytes (b ++ e.body) = .ok e := by
  obtain ⟨hlength, hunpack⟩ := header_spec h
  have hpayload : (e.payload.length : Int) ≤ maxEnvelopePayload := by exact_mod_cast e.bounds.payload
  have htotal : ((b ++ e.body).length : Int) =
      envelopeHeaderLen + e.header.kindLen + e.header.contextLen + e.header.payloadLen := by
    rw [length_append, hlength, Nat.cast_add, e.length_body]
    omega
  have hdecode : (decodeUtf8 (encodeUtf8 e.kind)).mapError (fun _ =>
      EnvelopeError.protocolError "kind is not valid UTF-8") = .ok e.kind := by
    rw [decodeUtf8_encodeUtf8]
    rfl
  unfold fromBytes
  rw [if_neg (by rw [length_append, hlength]; omega)]
  simp only [bind_eq_ok]
  refine ⟨_, hunpack e.body, (), e.checkHeader_ok hpayload, ?_⟩
  rw [if_neg (not_not.mpr htotal)]
  simp only [bind_eq_ok]
  refine ⟨_, e.correlationId.ofBytes_bytes, ?_⟩
  rw [if_neg e.bounds.correlation, drop_left' hlength]
  dsimp only [header]
  simp only [Int.toNat_natCast, body, splitAt_append rfl, hdecode]
  exact e.make_fields

end Envelope

theorem readEnvelope_frame {e : Envelope} {frame : Bytes} (h : e.toBytes = .ok frame) {maxPayload : Int}
    (hmax : e.payload.length ≤ maxPayload) {rest : Bytes} (hs : s.pending = frame ++ rest) :
    ∃ s', readEnvelope maxPayload s = (.ok e, s') ∧ s'.pending = rest := by
  unfold toBytes at h
  simp only [bind_eq_ok, pure_eq_ok] at h
  obtain ⟨b, hpack, rfl⟩ := h
  obtain ⟨hlength, hunpack⟩ := header_spec hpack
  rw [append_assoc] at hs
  obtain ⟨s₁, hheader, hbody⟩ := readExactly_ok hs
  have hframed : s₁.pending = e.body ++ rest := hbody
  obtain ⟨s₂, hread, hrest⟩ := readExactly_ok hframed
  have hfields : Header.unpack b = .ok e.header := by
    rw [Header.unpack, if_neg (not_not.mpr hlength)]
    simpa using hunpack []
  have hsize : (e.header.kindLen + e.header.contextLen + e.header.payloadLen).toNat =
      e.body.length := by
    rw [← e.length_body, Int.toNat_natCast]
  have hunpacked : lift (σ := StreamReader UInt8) (Header.unpack b) s₁ = (.ok e.header, s₁) := by
    rw [hfields]
    rfl
  have hchecked : lift (σ := StreamReader UInt8) (checkHeader e.header.mode e.header.kindLen
      e.header.contextLen e.header.payloadLen maxPayload) s₁ = (.ok (), s₁) := by
    rw [e.checkHeader_ok hmax]
    rfl
  refine ⟨s₂, ?_, hrest⟩
  rw [hlength] at hheader
  rw [← hsize] at hread
  rw [readEnvelope, bind_ok (mapError_ok hheader), bind_ok hunpacked, bind_ok hchecked,
    bind_ok (mapError_ok hread), fromBytes_frame hpack]
  rfl

theorem readEnvelope_ended (hs : s.pending = []) (maxPayload : Int) :
    ∃ s', readEnvelope maxPayload s = (.error .eofError, s') := by
  obtain ⟨s', hread⟩ := readExactly_ended hs (n := envelopeHeaderLen) (by decide)
  refine ⟨s', ?_⟩
  rw [readEnvelope, bind_error (mapError_error hread), if_pos rfl]

theorem Envelope.toBytes_ok (e : Envelope) : ∃ frame, e.toBytes = .ok frame := by
  obtain ⟨b, hpack⟩ := e.header_fits.pack_ok
  refine ⟨b ++ e.body, ?_⟩
  rw [toBytes, hpack]
  rfl

theorem envelope_streams_round_trip (envelopes : List Envelope) : ∃ frames, envelopes.mapM toBytes = .ok frames ∧
      ∀ chunks : List Bytes, chunks.flatten = frames.flatten →
        ∃ s, collect (range envelopes.length) (fun _ => readEnvelope maxEnvelopePayload)
            ⟨[], chunks⟩ = (.ok envelopes, s) ∧
          ∃ s', readEnvelope maxEnvelopePayload s = (.error .eofError, s') := by
  choose frame hframe using toBytes_ok
  refine ⟨envelopes.map frame, mapM_ok_of_forall fun e _ => hframe e, ?_⟩
  intro chunks hchunks
  have hread : ∀ e s rest, s.pending = frame e ++ rest →
      ∃ s', readEnvelope maxEnvelopePayload s = (.ok e, s') ∧ s'.pending = rest := by
    intro e s rest hs
    exact readEnvelope_frame (hframe e) (by exact_mod_cast e.bounds.payload) hs
  have hpending : pending (⟨[], chunks⟩ : StreamReader UInt8) =
      (envelopes.map frame).flatten ++ [] := by
    rw [append_nil]
    exact hchunks
  obtain ⟨s, hcollect, hrest⟩ := collect_frames hread (length_range ..) hpending
  exact ⟨s, hcollect, readEnvelope_ended hrest _⟩

namespace Sample

def pingFields : EnvelopeFields where
  protoVersion := 1
  schemaId := 2
  mode := modeRpc
  correlationId := ⟨7, by decide⟩
  kind := "kv.get"
  payload := [1, 2, 3]

def ping : Envelope := ⟨pingFields, by decide +kernel⟩

theorem pings_read_byte_by_byte : ∃ frames, [ping, ping].mapM toBytes = .ok frames ∧
      ∃ s, collect [0, 1] (fun _ => readEnvelope maxEnvelopePayload)
          ⟨[], frames.flatten.map fun b => [b]⟩ = (.ok [ping, ping], s) ∧
        ∃ s', readEnvelope maxEnvelopePayload s = (.error .eofError, s') := by
  obtain ⟨frames, hframes, hread⟩ := envelope_streams_round_trip [ping, ping]
  refine ⟨frames, hframes, hread (frames.flatten.map fun b => [b]) ?_⟩
  rw [← flatMap_def]
  exact flatMap_singleton' _

end Sample

end Tourillon
