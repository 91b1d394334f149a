import Tourillon.Schema.Decoding
import Tourillon.Store.RepairToken

namespace Tourillon

open Endian Exceptional List

variable {n₁ n₂ : Nat} {key : Key} {token : String}

def looseBits : List Char → Nat
  | _ :: _ :: _ :: _ :: rest => looseBits rest
  | [_, _, c] => (base64Digit c).getD 0 % 4
  | [_, c] => (base64Digit c).getD 0 % 16
  | _ => 0

def endsWithKey (raw : Bytes) : Bool :=
  match Key.walk .logs (BytesWalker.start raw) with
  | .ok (key, w) => w.rest = [] && key.address.Encodable
  | .error _ => true

def Tidy (token : String) : Prop :=
  (∀ c ∈ token.toList, c ∈ base64Alphabet) ∧ looseBits token.toList = 0 ∧
    ∀ raw ∈ (urlsafeB64decode (token.toList ++ tokenPadding token.length)).toOption, endsWithKey raw

instance (token : String) : Decidable (Tidy token) :=
  letI : Decidable (∀ c ∈ token.toList, c ∈ base64Alphabet) := decidableBAll _ _
  inferInstanceAs (Decidable (_ ∧ _ ∧ _))

theorem exists_digit {c : Char} (h : c ∈ base64Alphabet) : ∃ n < 64, base64Char n = c := by
  obtain ⟨n, hn, rfl⟩ := mem_iff_getElem.mp h
  have hlength : base64Alphabet.length = 64 := by decide +kernel
  refine ⟨n, by omega, ?_⟩
  simp [base64Char, hn]

theorem toNat_ofNat_byte {n : Nat} (h : n < 256) : (UInt8.ofNat n).toNat = n := by
  simpa using Nat.mod_eq_of_lt h

theorem urlsafeB64encode_four {n₃ n₄ : Nat} (h₁ : n₁ < 64) (h₂ : n₂ < 64) (h₃ : n₃ < 64) (h₄ : n₄ < 64)
    (rest : Bytes) : urlsafeB64encode (UInt8.ofNat (n₁ * 4 + n₂ / 16) :: UInt8.ofNat (n₂ % 16 * 16 + n₃ / 4) ::
      UInt8.ofNat (n₃ % 4 * 64 + n₄) :: rest) =
      base64Char n₁ :: base64Char n₂ :: base64Char n₃ :: base64Char n₄ :: urlsafeB64encode rest := by
  have hfirst : (n₁ * 4 + n₂ / 16) / 4 = n₁ := by omega
  have hsecond : (n₁ * 4 + n₂ / 16) % 4 * 16 + (n₂ % 16 * 16 + n₃ / 4) / 16 = n₂ := by omega
  have hthird : (n₂ % 16 * 16 + n₃ / 4) % 16 * 4 + (n₃ % 4 * 64 + n₄) / 64 = n₃ := by omega
  have hfourth : (n₃ % 4 * 64 + n₄) % 64 = n₄ := by omega
  rw [urlsafeB64encode, toNat_ofNat_byte (by omega), toNat_ofNat_byte (by omega),
    toNat_ofNat_byte (by omega), hfirst, hsecond, hthird, hfourth]

theorem urlsafeB64encode_three {n₃ : Nat} (h₁ : n₁ < 64) (h₂ : n₂ < 64) (h₃ : n₃ < 64) (hloose : n₃ % 4 = 0) :
    urlsafeB64encode [UInt8.ofNat (n₁ * 4 + n₂ / 16), UInt8.ofNat (n₂ % 16 * 16 + n₃ / 4)] =
      [base64Char n₁, base64Char n₂, base64Char n₃] := by
  have hfirst : (n₁ * 4 + n₂ / 16) / 4 = n₁ := by omega
  have hsecond : (n₁ * 4 + n₂ / 16) % 4 * 16 + (n₂ % 16 * 16 + n₃ / 4) / 16 = n₂ := by omega
  have hthird : (n₂ % 16 * 16 + n₃ / 4) % 16 * 4 = n₃ := by omega
  rw [urlsafeB64encode, toNat_ofNat_byte (by omega), toNat_ofNat_byte (by omega), hfirst, hsecond,
    hthird]

theorem urlsafeB64encode_two (h₁ : n₁ < 64) (h₂ : n₂ < 64) (hloose : n₂ % 16 = 0) :
    urlsafeB64encode [UInt8.ofNat (n₁ * 4 + n₂ / 16)] = [base64Char n₁, base64Char n₂] := by
  have hfirst : (n₁ * 4 + n₂ / 16) / 4 = n₁ := by omega
  have hsecond : (n₁ * 4 + n₂ / 16) % 4 * 16 = n₂ := by omega
  rw [urlsafeB64encode, toNat_ofNat_byte (by omega), hfirst, hsecond]

theorem encode_of_a2bBase64 (cs : List Char) (hcs : ∀ c ∈ cs, c ∈ base64Alphabet)
    (hloose : looseBits cs = 0) {out raw : Bytes}
    (h : a2bBase64 (cs ++ tokenPadding cs.length) 0 0 0 out = .ok raw) :
    ∃ b, raw = out ++ b ∧ urlsafeB64encode b = cs := by
  induction cs using looseBits.induct generalizing out with
  | case1 c₁ c₂ c₃ c₄ rest ih =>
    simp only [forall_mem_cons] at hcs
    obtain ⟨hc₁, hc₂, hc₃, hc₄, hrest⟩ := hcs
    obtain ⟨n₁, h₁, rfl⟩ := exists_digit hc₁
    obtain ⟨n₂, h₂, rfl⟩ := exists_digit hc₂
    obtain ⟨n₃, h₃, rfl⟩ := exists_digit hc₃
    obtain ⟨n₄, h₄, rfl⟩ := exists_digit hc₄
    have hpad : tokenPadding (base64Char n₁ :: base64Char n₂ :: base64Char n₃ :: base64Char n₄ ::
        rest).length = tokenPadding rest.length := tokenPadding_add rest.length
    rw [hpad] at h
    simp only [cons_append] at h
    rw [a2bBase64_first h₁, a2bBase64_second h₂, a2bBase64_third h₃, a2bBase64_fourth h₄] at h
    obtain ⟨b, rfl, hb⟩ := ih hrest hloose h
    refine ⟨UInt8.ofNat (n₁ * 4 + n₂ / 16) :: UInt8.ofNat (n₂ % 16 * 16 + n₃ / 4) ::
      UInt8.ofNat (n₃ % 4 * 64 + n₄) :: b, by simp, ?_⟩
    rw [urlsafeB64encode_four h₁ h₂ h₃ h₄, hb]
  | case2 c₁ c₂ c₃ =>
    simp only [forall_mem_cons] at hcs
    obtain ⟨hc₁, hc₂, hc₃, _⟩ := hcs
    obtain ⟨n₁, h₁, rfl⟩ := exists_digit hc₁
    obtain ⟨n₂, h₂, rfl⟩ := exists_digit hc₂
    obtain ⟨n₃, h₃, rfl⟩ := exists_digit hc₃
    rw [looseBits, (base64Digit_base64Char h₃).2.2, Option.getD_some] at hloose
    simp only [cons_append, nil_append] at h
    rw [a2bBase64_first h₁, a2bBase64_second h₂, a2bBase64_third h₃] at h
    simp only [tokenPadding, length_cons, length_nil, replicate, a2bBase64] at h
    exact ⟨_, by simpa using (Except.ok.inj h).symm, urlsafeB64encode_three h₁ h₂ h₃ hloose⟩
  | case3 c₁ c₂ =>
    simp only [forall_mem_cons] at hcs
    obtain ⟨hc₁, hc₂, _⟩ := hcs
    obtain ⟨n₁, h₁, rfl⟩ := exists_digit hc₁
    obtain ⟨n₂, h₂, rfl⟩ := exists_digit hc₂
    rw [looseBits, (base64Digit_base64Char h₂).2.2, Option.getD_some] at hloose
    simp only [cons_append, nil_append] at h
    rw [a2bBase64_first h₁, a2bBase64_second h₂] at h
    simp only [tokenPadding, length_cons, length_nil, replicate, a2bBase64] at h
    exact ⟨_, by simpa using (Except.ok.inj h).symm, urlsafeB64encode_two h₁ h₂ hloose⟩
  | case4 cs hfour hthree htwo =>
    rcases cs with _ | ⟨c₁, _ | ⟨c₂, _ | ⟨c₃, _ | ⟨c₄, rest⟩⟩⟩⟩
    · exact ⟨[], by simpa [tokenPadding, a2bBase64] using h.symm, rfl⟩
    · obtain ⟨n, hn, rfl⟩ := exists_digit (hcs c₁ (mem_singleton_self c₁))
      simp only [cons_append, nil_append] at h
      rw [a2bBase64_first hn] at h
      cases h
    · exact absurd rfl (htwo c₁ c₂)
    · exact absurd rfl (hthree c₁ c₂ c₃)
    · exact absurd rfl (hfour c₁ c₂ c₃ c₄ rest)

theorem encode_of_fromBytes {raw : Bytes} (h : Key.fromBytes .logs raw = .ok key) (hends : endsWithKey raw) :
    key.toBytes .logs = .ok raw := by
  simp only [Key.fromBytes, bind_eq_ok, pure_eq_ok, Prod.exists] at h
  obtain ⟨_, w, hwalk, rfl⟩ := h
  simp only [endsWithKey, hwalk, Bool.and_eq_true, decide_eq_true_eq] at hends
  obtain ⟨hraw, hencodable⟩ := Key.walk_logs_ok hwalk
  rw [hends.1, append_nil] at hraw
  exact Key.toBytes_logs_eq_ok.mpr ⟨hencodable hends.2, hraw⟩

theorem decodeToken_ok (h : decodeToken token = .ok key) :
    ∃ raw, a2bBase64 (token.toList ++ tokenPadding token.length) 0 0 0 [] = .ok raw ∧
      urlsafeB64decode (token.toList ++ tokenPadding token.length) = .ok raw ∧
      Key.fromBytes .logs raw = .ok key := by
  unfold decodeToken at h
  split at h
  · cases h
  · split at h
    · cases h
    · rename_i raw hraw
      split at h
      · cases h
      · rename_i found hfound
        cases h
        refine ⟨raw, ?_, hraw, hfound⟩
        unfold urlsafeB64decode at hraw
        split at hraw
        · exact hraw
        · cases hraw

theorem decodeToken_error {e : PyError} (h : decodeToken token = .error e) :
    ∃ message, e = .valueError message := by
  unfold decodeToken at h
  split at h
  · cases h
    exact ⟨_, rfl⟩
  · split at h
    · cases h
      exact ⟨_, rfl⟩
    · split at h
      · cases h
        exact ⟨_, rfl⟩
      · cases h

theorem encodeToken_of_decodeToken (htidy : Tidy token) (h : decodeToken token = .ok key) :
    encodeToken key = .ok token := by
  obtain ⟨halphabet, hloose, hends⟩ := htidy
  obtain ⟨raw, hdecoded, hraw, hkey⟩ := decodeToken_ok h
  rw [← String.length_toList] at hdecoded
  obtain ⟨b, rfl, hb⟩ := encode_of_a2bBase64 token.toList halphabet hloose hdecoded
  have hbytes := encode_of_fromBytes hkey (hends raw (mem_toOption.mpr hraw))
  simp only [encodeToken, hbytes, bind, Except.bind, pure, Except.pure, hb, String.ofList_toList]

theorem looseBits_encode (b : Bytes) : looseBits (urlsafeB64encode b) = 0 := by
  induction b using urlsafeB64encode.induct with
  | case1 a b c rest ih => rw [urlsafeB64encode, looseBits, ih]
  | case2 a b =>
    rw [urlsafeB64encode, looseBits, (base64Digit_base64Char (by omega)).2.2, Option.getD_some]
    omega
  | case3 a =>
    rw [urlsafeB64encode, looseBits, (base64Digit_base64Char (by omega)).2.2, Option.getD_some]
    omega
  | case4 => rfl

theorem endsWithKey_encode (h : key.Encodable) : endsWithKey (key.encode .logs) := by
  have hw := Key.walk_logs_encode h 0 []
  rw [append_nil] at hw
  simp [endsWithKey, BytesWalker.start, hw, h.2.1]

theorem tidy_of_encodeToken (h : encodeToken key = .ok token) : Tidy token := by
  obtain ⟨hkey, rfl⟩ := encodeToken_eq_ok.mp h
  have hmem : ∀ n < 64, base64Char n ∈ base64Alphabet := by decide +kernel
  rw [Tidy, String.toList_ofList, String.length_ofList, urlsafeB64decode_encode]
  refine ⟨urlsafeB64encode_forall hmem _, looseBits_encode _, ?_⟩
  intro raw hraw
  cases mem_toOption.mp hraw
  exact endsWithKey_encode hkey

theorem encodeToken_iff_tidy (h : decodeToken token = .ok key) : encodeToken key = .ok token ↔ Tidy token :=
  ⟨tidy_of_encodeToken, fun htidy => encodeToken_of_decodeToken htidy h⟩

namespace Sample

def namedKey : Key := ⟨0, ⟨[1], [2]⟩, ⟨9, 0, "a", size_a⟩⟩

def namedToken : String := "AAAAAAECAQEAAAAAAAAACQAAAAFh"

end Sample

end Tourillon
