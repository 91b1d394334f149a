import Tourillon.Schema.Decoding
import Tourillon.Transport.RoundTrip

namespace Tourillon

open Endian Exceptional Framing Prog List Header

variable {b : Bytes} {header : Header} {maxPayload : Int} {rest raw context payload : Bytes}

namespace Header

variable {b : Bytes} {width : Nat}

def cleared (h : Header) : Header := { h with reserved := replicate 6 0 }

structure Unpacked (b : Bytes) (h : Header) : Prop where
  length : b.length = envelopeHeaderLen
  fields : ∀ rest, unpackFrom (b ++ rest) = .ok h
  fits : h.Fits
  correlation : h.correlation.length = 16
  cleared : h.cleared.pack = .ok (b.take 26 ++ replicate 6 0)

theorem exists_split {n m : Nat} (h : b.length = n + m) : ∃ x y, b = x ++ y ∧ x.length = n ∧ y.length = m :=
  ⟨b.take n, b.drop n, (take_append_drop n b).symm, by rw [length_take]; omega,
    by rw [length_drop]; omega⟩

theorem packInt_ofBE (h : b.length = width) : packInt width (ofBE b) = .ok b := by
  have hlt := ofBE_lt b
  have hback := toBE_ofBE b
  rw [h] at hlt hback
  rw [packInt, if_pos ⟨Int.natCast_nonneg _, by exact_mod_cast hlt⟩, Int.toNat_natCast, hback]

theorem ofBE_fits (h : b.length = width) : 0 ≤ (ofBE b : Int) ∧ (ofBE b : Int) < 256 ^ width := by
  have hlt := ofBE_lt b
  rw [h] at hlt
  exact ⟨Int.natCast_nonneg _, by exact_mod_cast hlt⟩

theorem exists_unpacked (h : b.length = envelopeHeaderLen) : ∃ header, Unpacked b header := by
  obtain ⟨proto, b₁, rfl, hproto, h₁⟩ := exists_split (n := 1) (m := 31) h
  obtain ⟨schema, b₂, rfl, hschema, h₂⟩ := exists_split (n := 2) (m := 29) h₁
  obtain ⟨mode, b₃, rfl, hmode, h₃⟩ := exists_split (n := 1) (m := 28) h₂
  obtain ⟨correlation, b₄, rfl, hcorrelation, h₄⟩ := exists_split (n := 16) (m := 12) h₃
  obtain ⟨payload, b₅, rfl, hpayload, h₅⟩ := exists_split (n := 4) (m := 8) h₄
  obtain ⟨kind, b₆, rfl, hkind, h₆⟩ := exists_split (n := 1) (m := 7) h₅
  obtain ⟨context, reserved, rfl, hcontext, hreserved⟩ := exists_split (n := 1) (m := 6) h₆
  refine ⟨⟨ofBE proto, ofBE schema, ofBE mode, correlation, ofBE payload, ofBE kind, ofBE context,
    reserved⟩, h, ?_, ?_, hcorrelation, ?_⟩
  · intro rest
    rw [unpackFrom, if_neg (by rw [length_append, h]; omega)]
    simp only [append_assoc, splitAt_append hproto, splitAt_append hschema, splitAt_append hmode,
      splitAt_append hcorrelation, splitAt_append hpayload, splitAt_append hkind,
      splitAt_append hcontext, take_left' hreserved]
  · exact ⟨ofBE_fits hproto, ofBE_fits hschema, ofBE_fits hmode, ofBE_fits hpayload, ofBE_fits hkind,
      ofBE_fits hcontext⟩
  · have hfront : (proto ++ (schema ++ (mode ++ (correlation ++ (payload ++ (kind ++ (context ++
        reserved))))))).take 26 =
        proto ++ (schema ++ (mode ++ (correlation ++ (payload ++ (kind ++ context))))) := by
      rw [← append_assoc kind, ← append_assoc payload, ← append_assoc correlation,
        ← append_assoc mode, ← append_assoc schema, ← append_assoc proto]
      refine take_left' ?_
      simp only [length_append, hproto, hschema, hmode, hcorrelation, hpayload, hkind, hcontext]
    rw [hfront]
    simp only [pack, cleared, bind_eq_ok, pure_eq_ok]
    refine ⟨proto, packInt_ofBE hproto, schema, packInt_ofBE hschema, mode, packInt_ofBE hmode,
      payload, packInt_ofBE hpayload, kind, packInt_ofBE hkind, context, packInt_ofBE hcontext, ?_⟩
    rw [packBytes_of_length hcorrelation, packBytes_of_length (length_replicate ..)]
    simp only [append_assoc]

end Header

def Header.Bounded (maxPayload : Int) (h : Header) : Prop :=
  h.mode ∈ [modeRpc, modeFnf] ∧ (1 ≤ h.kindLen ∧ h.kindLen ≤ maxKindLen) ∧
    h.contextLen ≤ maxEnvelopeContext ∧ h.payloadLen ≤ maxPayload

instance (maxPayload : Int) (h : Header) : Decidable (h.Bounded maxPayload) :=
  inferInstanceAs (Decidable (_ ∧ _ ∧ _ ∧ _))

theorem checkHeader_cases (maxPayload : Int) (h : Header) :
    (checkHeader h.mode h.kindLen h.contextLen h.payloadLen maxPayload = .ok () ∧ h.Bounded maxPayload) ∨
    ¬ h.Bounded maxPayload ∧ ∃ message, checkHeader h.mode h.kindLen h.contextLen h.payloadLen maxPayload =
      .error (.protocolError message) := by
  unfold checkHeader
  split
  · rename_i hmode
    exact .inr ⟨fun hbounded => hmode hbounded.1, _, rfl⟩
  split
  · rename_i hkind
    exact .inr ⟨fun hbounded => hkind hbounded.2.1, _, rfl⟩
  split
  · rename_i hcontext
    exact .inr ⟨fun hbounded => not_lt.mpr hbounded.2.2.1 hcontext, _, rfl⟩
  split
  · rename_i hpayload
    exact .inr ⟨fun hbounded => not_lt.mpr hbounded.2.2.2 hpayload, _, rfl⟩
  · rename_i hmode hkind hcontext hpayload
    exact .inl ⟨rfl, not_not.mp hmode, not_not.mp hkind, not_lt.mp hcontext, not_lt.mp hpayload⟩

def wireBytes (frame : Bytes) : Bytes := frame.take 26 ++ (replicate 6 0 ++ frame.drop envelopeHeaderLen)

def FrameOf (frame : Bytes) (e : Envelope) : Prop := e.toBytes = .ok (wireBytes frame)

def Header.Admitted (maxPayload : Int) (length : Nat) (h : Header) : Prop :=
  h.Bounded maxPayload ∧ h.Bounded maxEnvelopePayload ∧ ofBE h.correlation ≠ 0 ∧
    envelopeHeaderLen + h.kindLen + h.contextLen + h.payloadLen ≤ length

instance (maxPayload : Int) (length : Nat) (h : Header) : Decidable (h.Admitted maxPayload length) :=
  inferInstanceAs (Decidable (_ ∧ _ ∧ _ ∧ _))

def KindSpelled (maxPayload : Int) (stream : Bytes) : Prop :=
  ∀ h ∈ (unpackFrom stream).toOption, h.Admitted maxPayload stream.length →
    ∀ kind ∈ (decodeUtf8 ((stream.drop envelopeHeaderLen).take h.kindLen.toNat)).toOption,
      kindPattern kind = true

instance (maxPayload : Int) (stream : Bytes) : Decidable (KindSpelled maxPayload stream) :=
  inferInstanceAs (Decidable (∀ h ∈ (unpackFrom stream).toOption, _ → ∀ _ ∈ _, _))

inductive Parsed (maxPayload : Int) (frame : Bytes) : Except EnvelopeError Envelope → Prop where
  | envelope (e : Envelope) (h : FrameOf frame e) (hkind : ∀ rest, KindSpelled maxPayload (frame ++ rest)) :
    Parsed maxPayload frame (.ok e)
  | protocol (message : String) (hkind : ∀ rest, KindSpelled maxPayload (frame ++ rest)) :
    Parsed maxPayload frame (.error (.protocolError message))
  | misspelled (hkind : ∀ rest, ¬ KindSpelled maxPayload (frame ++ rest)) :
    Parsed maxPayload frame (.error (.valueError "kind must be lowercase and follow domain.action"))

theorem EnvelopeFields.validate_cases {e : EnvelopeFields} (h : Envelope.Bounds e) :
    (kindPattern e.kind = true ∧ e.validate = .ok ()) ∨ ¬ kindPattern e.kind ∧
      e.validate = .error (.valueError "kind must be lowercase and follow domain.action") := by
  have hscalars : e.validateScalars = .ok () := by
    simp only [validateScalars, refuse_eq_ok, not_not]
    exact ⟨h.proto, h.schema, h.mode, h.correlation, trivial⟩
  have hpayload : e.validatePayload = .ok () := by
    simp only [validatePayload, refuse_eq_ok, not_lt]
    exact ⟨h.payload, h.context, trivial⟩
  by_cases hkind : kindPattern e.kind
  · refine .inl ⟨hkind, ?_⟩
    simp only [validate, hscalars, hpayload, validateKind, bind, Except.bind]
    rw [if_neg (not_not.mpr h.kind), if_neg (not_not.mpr hkind)]
  · refine .inr ⟨hkind, ?_⟩
    simp only [validate, hscalars, hpayload, validateKind, bind, Except.bind]
    rw [if_neg (not_not.mpr h.kind), if_pos hkind]

theorem Envelope.make_cases {fields : EnvelopeFields} (h : Envelope.Bounds fields) :
    (∃ e : Envelope, Envelope.make fields = .ok e ∧ e.toEnvelopeFields = fields ∧ kindPattern fields.kind = true) ∨
    ¬ kindPattern fields.kind ∧ Envelope.make fields =
      .error (.valueError "kind must be lowercase and follow domain.action") := by
  unfold Envelope.make
  split
  · rename_i hvalid
    rcases EnvelopeFields.validate_cases h with ⟨hkind, _⟩ | ⟨_, herror⟩
    · exact .inl ⟨_, rfl, rfl, hkind⟩
    · rw [herror] at hvalid
      cases hvalid
  · rename_i e hfail
    rcases EnvelopeFields.validate_cases h with ⟨_, hok⟩ | ⟨hkind, herror⟩
    · rw [hok] at hfail
      cases hfail
    · rw [herror] at hfail
      cases hfail
      exact .inr ⟨hkind, rfl⟩

theorem UUID.exists_ofBytes (h : b.length = 16) : ∃ u, UUID.ofBytes b = .ok u ∧ u.bytes = b ∧ u.int = ofBE b := by
  have hback := toBE_ofBE b
  rw [h] at hback
  rw [UUID.ofBytes, dif_pos h]
  exact ⟨_, rfl, hback, rfl⟩

theorem wireBytes_append (h : b.length = envelopeHeaderLen) (body : Bytes) :
    wireBytes (b ++ body) = b.take 26 ++ (replicate 6 0 ++ body) := by
  rw [wireBytes, drop_left' h, take_append_of_le_length (by rw [h]; decide)]

theorem Header.Unpacked.frameOf {body : Bytes} (hb : header.Unpacked b) {e : Envelope}
    (hheader : e.header = header.cleared) (hbody : e.body = body) : FrameOf (b ++ body) e := by
  rw [FrameOf, wireBytes_append hb.length, Envelope.toBytes, hheader, hb.cleared, ← hbody]
  simp [bind, Except.bind, pure, Except.pure, Envelope.body]

theorem Header.Unpacked.kindSpelled_iff (hb : header.Unpacked b) :
    KindSpelled maxPayload (b ++ rest) ↔ (header.Admitted maxPayload (b ++ rest).length →
      ∀ kind ∈ (decodeUtf8 (rest.take header.kindLen.toNat)).toOption, kindPattern kind = true) := by
  have hfields : header ∈ (unpackFrom (b ++ rest)).toOption := mem_toOption.mpr (hb.fields rest)
  rw [KindSpelled, Option.mem_def.mp hfields, drop_left' hb.length]
  simp only [Option.mem_def, Option.some.injEq, forall_eq']

theorem Header.Unpacked.admitted_append (hb : header.Unpacked b) (hraw : header.kindLen = raw.length)
    (hcontext : header.contextLen = context.length) (hpayload : header.payloadLen = payload.length) :
    header.Admitted maxPayload (b ++ (raw ++ (context ++ (payload ++ rest)))).length ↔
      header.Bounded maxPayload ∧ header.Bounded maxEnvelopePayload ∧ ofBE header.correlation ≠ 0 := by
  have hlength : envelopeHeaderLen + header.kindLen + header.contextLen + header.payloadLen ≤
      (b ++ (raw ++ (context ++ (payload ++ rest)))).length := by
    simp only [length_append, hb.length, hraw, hcontext, hpayload]
    omega
  simp only [Admitted, hlength, and_true]

theorem Envelope.fromBytes_parsed (hb : header.Unpacked b) (hraw : header.kindLen = raw.length)
    (hcontext : header.contextLen = context.length) (hpayload : header.payloadLen = payload.length)
    (hbounded : header.Bounded maxPayload) :
    Parsed maxPayload (b ++ (raw ++ (context ++ payload))) (fromBytes (b ++ (raw ++ (context ++ payload)))) := by
  have htotal : ((b ++ (raw ++ (context ++ payload))).length : Int) =
      envelopeHeaderLen + header.kindLen + header.contextLen + header.payloadLen := by
    simp only [length_append, hb.length, hraw, hcontext, hpayload]
    omega
  have hspelled : ∀ rest, KindSpelled maxPayload (b ++ (raw ++ (context ++ payload)) ++ rest) ↔
      (header.Bounded maxEnvelopePayload → ofBE header.correlation ≠ 0 →
        ∀ kind ∈ (decodeUtf8 raw).toOption, kindPattern kind = true) := by
    intro rest
    simp only [append_assoc]
    rw [hb.kindSpelled_iff, hb.admitted_append hraw hcontext hpayload, hraw, Int.toNat_natCast, take_left]
    exact ⟨fun h hchecked hzero => h ⟨hbounded, hchecked, hzero⟩, fun h hall => h hall.2.1 hall.2.2⟩
  unfold fromBytes
  rw [if_neg (by rw [length_append, hb.length]; omega), hb.fields]
  rcases checkHeader_cases maxEnvelopePayload header with ⟨hchecked, hwithin⟩ | ⟨hnot, message, herror⟩
  · obtain ⟨correlationId, hcorrelation, hbytes, hint⟩ := UUID.exists_ofBytes hb.correlation
    simp only [bind, Except.bind, hchecked, hcorrelation]
    rw [if_neg (not_not.mpr htotal)]
    by_cases hzero : correlationId.int = 0
    · rw [if_pos hzero]
      exact .protocol _ fun rest => (hspelled rest).mpr fun _ h => absurd (hint ▸ hzero) h
    · rw [if_neg hzero, drop_left' hb.length, hraw, hcontext, Int.toNat_natCast,
        Int.toNat_natCast, splitAt_append rfl, splitAt_append rfl]
      have hkinds : ∀ kind, kind ∈ (decodeUtf8 raw).toOption ↔ decodeUtf8 raw = .ok kind :=
        fun _ => mem_toOption
      cases hdecoded : decodeUtf8 raw with
      | error e =>
        refine .protocol _ fun rest => (hspelled rest).mpr fun _ _ kind hkind => ?_
        cases hdecoded.symm.trans ((hkinds kind).mp hkind)
      | ok kind =>
        have hkind : encodeUtf8 kind = raw := encodeUtf8_of_decodeUtf8 hdecoded
        have hbounds : Envelope.Bounds ⟨header.protoVersion, header.schemaId, header.mode,
            correlationId, kind, payload, context⟩ := by
          obtain ⟨hmode, hkindLen, hcontextLen, hpayloadLen⟩ := hwithin
          obtain ⟨⟨hproto0, hproto⟩, ⟨hschema0, hschema⟩, -, -, -, -⟩ := hb.fits
          refine ⟨⟨hproto0, Int.lt_add_one_iff.mp hproto⟩, ⟨hschema0, Int.lt_add_one_iff.mp hschema⟩,
            hmode, hzero, ?_, ?_, ?_⟩
          · rw [hpayload] at hpayloadLen
            exact_mod_cast hpayloadLen
          · rw [hcontext] at hcontextLen
            exact_mod_cast hcontextLen
          · rw [hraw] at hkindLen
            rw [hkind]
            exact ⟨by exact_mod_cast hkindLen.1, by exact_mod_cast hkindLen.2⟩
        have hself := (hkinds kind).mpr hdecoded
        change Parsed _ _ (Envelope.make _)
        rcases Envelope.make_cases hbounds with ⟨e, hmade, hfields, hpattern⟩ | ⟨hpattern, hmade⟩
        · have hheader : e.header = header.cleared := by
            simp only [Envelope.header, hfields, cleared, hbytes, hkind, hraw, hcontext, hpayload]
          have hbody : e.body = raw ++ (context ++ payload) := by rw [Envelope.body, hfields, hkind]
          rw [hmade]
          refine .envelope e (hb.frameOf hheader hbody) fun rest => (hspelled rest).mpr ?_
          intro _ _ kind' hkind'
          cases Option.mem_unique hself hkind'
          exact hpattern
        · rw [hmade]
          exact .misspelled fun rest h => hpattern ((hspelled rest).mp h hwithin (hint ▸ hzero) kind hself)
  · simp only [bind, Except.bind, herror]
    exact .protocol message fun rest => (hspelled rest).mpr fun h => absurd h hnot

inductive ReadOutcome (maxPayload : Int) (s : StreamReader UInt8) :
    Except EnvelopeError Envelope × StreamReader UInt8 → Prop where
  | frame (frame : Bytes) (r : Except EnvelopeError Envelope) (s' : StreamReader UInt8)
    (h : s.pending ≠ []) (hframe : s.pending = frame ++ s'.pending) (hparsed : Parsed maxPayload frame r) :
    ReadOutcome maxPayload s (r, s')
  | ended (s' : StreamReader UInt8) (h : s.pending = []) : ReadOutcome maxPayload s (.error .eofError, s')
  | protocol (message : String) (s' : StreamReader UInt8) (h : s.pending ≠ [])
    (hkind : KindSpelled maxPayload s.pending) :
    ReadOutcome maxPayload s (.error (.protocolError message), s')

theorem KindSpelled.of_short {stream : Bytes} (h : stream.length < envelopeHeaderLen) :
    KindSpelled maxPayload stream := by
  intro header hheader
  rw [mem_toOption, unpackFrom, if_pos h] at hheader
  cases hheader

theorem readEnvelope_outcome (maxPayload : Int) (s : StreamReader UInt8) :
    ReadOutcome maxPayload s (readEnvelope maxPayload s) := by
  rcases StreamReader.readExactly_cases envelopeHeaderLen s with
    ⟨b, s₁, ⟨hpending, hlength⟩, hread⟩ | ⟨hshort, s₁, hread⟩
  · obtain ⟨header, hb⟩ := exists_unpacked hlength
    have hne : s.pending ≠ [] := by
      intro hnil
      rw [hnil] at hpending
      have hempty := congrArg length hpending
      rw [length_append, hlength] at hempty
      cases (Nat.add_eq_zero_iff.mp hempty.symm).1
    have hunpack : unpack b = .ok header := by
      rw [unpack, if_neg (not_not.mpr hlength)]
      simpa using hb.fields []
    have hunpacked : lift (σ := StreamReader UInt8) (unpack b) s₁ = (.ok header, s₁) := by
      rw [hunpack]
      rfl
    rw [readEnvelope, bind_ok (mapError_ok hread), bind_ok hunpacked]
    rcases checkHeader_cases maxPayload header with ⟨hok, hbounded⟩ | ⟨hnot, message, herror⟩
    · rw [hok]
      have hchecked : lift (σ := StreamReader UInt8) (.ok () : Except EnvelopeError Unit) s₁ =
        (.ok (), s₁) := rfl
      rw [bind_ok hchecked]
      obtain ⟨kindLen, hkind⟩ := Int.eq_ofNat_of_zero_le hb.fits.kind.1
      obtain ⟨contextLen, hcontext⟩ := Int.eq_ofNat_of_zero_le hb.fits.context.1
      obtain ⟨payloadLen, hpayload⟩ := Int.eq_ofNat_of_zero_le hb.fits.payload.1
      have hsize : (header.kindLen + header.contextLen + header.payloadLen).toNat =
          kindLen + (contextLen + payloadLen) := by
        rw [hkind, hcontext, hpayload]
        omega
      rcases StreamReader.readExactly_cases
        (header.kindLen + header.contextLen + header.payloadLen).toNat s₁ with
        ⟨body, s₂, ⟨hrest, hbody⟩, hreadBody⟩ | ⟨hmissing, s₂, hreadBody⟩
      · rw [bind_ok (mapError_ok hreadBody)]
        obtain ⟨raw, tail, rfl, hraw, htail⟩ := exists_split (hbody.trans hsize)
        obtain ⟨context, payload, rfl, hcontextSize, hpayloadSize⟩ := exists_split htail
        refine .frame (b ++ (raw ++ (context ++ payload))) _ s₂ hne ?_ ?_
        · simp only [hpending, hrest, append_assoc]
        · exact Envelope.fromBytes_parsed hb (by rw [hkind, hraw]) (by rw [hcontext, hcontextSize])
            (by rw [hpayload, hpayloadSize]) hbounded
      · rw [bind_error (mapError_error hreadBody)]
        refine .protocol _ _ hne ?_
        rw [hpending, hb.kindSpelled_iff]
        rintro ⟨_, _, _, hlength⟩
        rw [length_append, hb.length] at hlength
        omega
    · rw [herror]
      refine .protocol _ _ hne ?_
      rw [hpending, hb.kindSpelled_iff]
      exact fun hadmitted => absurd hadmitted.1 hnot
  · rw [readEnvelope, bind_error (mapError_error hread)]
    by_cases hempty : s.pending = []
    · rw [if_pos hempty]
      exact .ended _ hempty
    · rw [if_neg hempty]
      exact .protocol _ _ hempty (.of_short hshort)

theorem consumed_frames {turns : List Nat} {s s' : StreamReader UInt8} {envelopes : List Envelope}
    (h : collect turns (fun _ => readEnvelope maxPayload) s = (.ok envelopes, s')) :
    ∃ frames, List.Forall₂ FrameOf frames envelopes ∧ s.pending = frames.flatten ++ s'.pending := by
  induction turns generalizing s envelopes with
  | nil =>
    cases h
    exact ⟨[], .nil, rfl⟩
  | cons i turns ih =>
    obtain ⟨e, s₁, hread, h⟩ := of_bind_ok h
    obtain ⟨rest, s₂, hcollect, h⟩ := of_bind_ok h
    cases h
    have houtcome := readEnvelope_outcome maxPayload s
    rw [show readEnvelope maxPayload s = (.ok e, s₁) from hread] at houtcome
    cases houtcome with
    | frame frame r s' _ hframe hparsed =>
      cases hparsed with
      | envelope e hframeOf =>
        obtain ⟨frames, hall, hpending⟩ := ih hcollect
        refine ⟨frame :: frames, .cons hframeOf hall, ?_⟩
        rw [hframe, hpending, flatten_cons, append_assoc]

namespace Sample

def shoutedFrame : Bytes :=
  [1, 0, 2, 0] ++ (toBE 16 7 ++ (toBE 4 0 ++ ([2, 0] ++ (replicate 6 0 ++ encodeUtf8 "KV"))))

def markedFrame (mode : UInt8) (kind : String) : Bytes :=
  [1, 0, 2, mode] ++ (toBE 16 7 ++ (toBE 4 0 ++ ([6, 0] ++ (replicate 6 9 ++ encodeUtf8 kind))))

def markedStream : StreamReader UInt8 := ⟨[], (markedFrame 0 "kv.get").map fun b => [b]⟩

end Sample

end Tourillon
