import Tourillon.Store.Fanout

namespace Tourillon

open Endian Exceptional List

variable {n : Nat}

def PyError.text : PyError → String
  | .overflowError message => message
  | .valueError message => message
  | .runtimeError message => message
  | .keyError key => s!"{key}"
  | .indexError => ""
  | .cancelledError => ""

def base64Digit : Char → Option Nat
  | '+' => some 62
  | '/' => some 63
  | c => base64Alphabet.idxOf? c

def a2bBase64 : List Char → Nat → Nat → Nat → Bytes → Except PyError Bytes
  | [], quad, _, _, out =>
    if quad = 0 then .ok out
    else if quad = 1 then
      .error (.valueError s!"Invalid base64-encoded string: number of data characters ({out.length / 3 * 4 + 1}) cannot be 1 more than a multiple of 4")
    else .error (.valueError "Incorrect padding")
  | c :: rest, quad, left, pads, out =>
    if c = '=' then
      if quad < 2 then a2bBase64 rest quad left pads out
      else if 4 ≤ quad + (pads + 1) then .ok out
      else a2bBase64 rest quad left (pads + 1) out
    else
      match base64Digit c with
      | none => a2bBase64 rest quad left pads out
      | some n =>
        match quad with
        | 0 => a2bBase64 rest 1 n 0 out
        | 1 => a2bBase64 rest 2 (n % 16) 0 (out ++ [UInt8.ofNat (left * 4 + n / 16)])
        | 2 => a2bBase64 rest 3 (n % 4) 0 (out ++ [UInt8.ofNat (left * 16 + n / 4)])
        | _ => a2bBase64 rest 0 0 0 (out ++ [UInt8.ofNat (left * 64 + n)])

def urlsafeB64decode (s : List Char) : Except PyError Bytes :=
  if s.all fun c => c.toNat < 128 then a2bBase64 s 0 0 0 []
  else .error (.valueError "string argument should contain only ASCII characters")

def tokenPadding (length : Nat) : List Char := replicate ((4 - length % 4) % 4) '='

def decodeToken (token : String) : Except PyError Key :=
  if token = "" then .error (.valueError "repair token must be a non-empty string")
  else
    match urlsafeB64decode (token.toList ++ tokenPadding token.length) with
    | .error e => .error (.valueError s!"repair token is not valid base64url: {e.text}")
    | .ok raw =>
      match Key.fromBytes .logs raw with
      | .error e => .error (.valueError s!"repair token does not decode to a version key: {e.text}")
      | .ok key => .ok key

section

variable (h : n < 64)

include h

theorem base64Digit_base64Char :
    base64Char n ≠ '=' ∧ (base64Char n).toNat < 128 ∧ base64Digit (base64Char n) = some n := by
  have hall : ∀ m < 64, base64Char m ≠ '=' ∧ (base64Char m).toNat < 128 ∧
      base64Digit (base64Char m) = some m := by
    decide +kernel
  exact hall n h

variable (rest : List Char)

theorem a2bBase64_char (quad left pads : Nat) (out : Bytes) : a2bBase64 (base64Char n :: rest) quad left pads out =
      match quad with
      | 0 => a2bBase64 rest 1 n 0 out
      | 1 => a2bBase64 rest 2 (n % 16) 0 (out ++ [UInt8.ofNat (left * 4 + n / 16)])
      | 2 => a2bBase64 rest 3 (n % 4) 0 (out ++ [UInt8.ofNat (left * 16 + n / 4)])
      | _ => a2bBase64 rest 0 0 0 (out ++ [UInt8.ofNat (left * 64 + n)]) := by
  obtain ⟨hpad, _, hdigit⟩ := base64Digit_base64Char h
  rw [a2bBase64, if_neg hpad, hdigit]

variable (left pads : Nat) (out : Bytes)

theorem a2bBase64_first : a2bBase64 (base64Char n :: rest) 0 left pads out = a2bBase64 rest 1 n 0 out :=
  a2bBase64_char h rest 0 left pads out

theorem a2bBase64_second : a2bBase64 (base64Char n :: rest) 1 left pads out =
      a2bBase64 rest 2 (n % 16) 0 (out ++ [UInt8.ofNat (left * 4 + n / 16)]) :=
  a2bBase64_char h rest 1 left pads out

theorem a2bBase64_third : a2bBase64 (base64Char n :: rest) 2 left pads out =
      a2bBase64 rest 3 (n % 4) 0 (out ++ [UInt8.ofNat (left * 16 + n / 4)]) :=
  a2bBase64_char h rest 2 left pads out

theorem a2bBase64_fourth : a2bBase64 (base64Char n :: rest) 3 left pads out =
      a2bBase64 rest 0 0 0 (out ++ [UInt8.ofNat (left * 64 + n)]) :=
  a2bBase64_char h rest 3 left pads out

end

theorem tokenPadding_add (length : Nat) : tokenPadding (length + 4) = tokenPadding length := by
  unfold tokenPadding
  congr 1
  omega

theorem length_urlsafeB64encode_cons (a b c : UInt8) (rest : Bytes) :
    (urlsafeB64encode (a :: b :: c :: rest)).length = (urlsafeB64encode rest).length + 4 := rfl

theorem ofNat_of_toNat_eq {a : UInt8} (h : n = a.toNat) : UInt8.ofNat n = a := by rw [h, UInt8.ofNat_toNat]

theorem first_byte (a b : UInt8) : UInt8.ofNat (a.toNat / 4 * 4 + (a.toNat % 4 * 16 + b.toNat / 16) / 16) = a := by
  have hb := b.toNat_lt
  exact ofNat_of_toNat_eq (by omega)

theorem second_byte (a b c : UInt8) :
    UInt8.ofNat ((a.toNat % 4 * 16 + b.toNat / 16) % 16 * 16 + (b.toNat % 16 * 4 + c.toNat / 64) / 4) =
      b := by
  have hb := b.toNat_lt
  have hc := c.toNat_lt
  exact ofNat_of_toNat_eq (by omega)

theorem third_byte (b c : UInt8) : UInt8.ofNat ((b.toNat % 16 * 4 + c.toNat / 64) % 4 * 64 + c.toNat % 64) = c := by
  have hc := c.toNat_lt
  exact ofNat_of_toNat_eq (by omega)

theorem a2bBase64_encode (b out : Bytes) :
    a2bBase64 (urlsafeB64encode b ++ tokenPadding (urlsafeB64encode b).length) 0 0 0 out =
      .ok (out ++ b) := by
  induction b using urlsafeB64encode.induct generalizing out with
  | case1 a b c rest ih =>
    have ha := a.toNat_lt
    have hb := b.toNat_lt
    have hc := c.toNat_lt
    rw [length_urlsafeB64encode_cons, tokenPadding_add, urlsafeB64encode]
    simp only [cons_append]
    rw [a2bBase64_first (by omega), a2bBase64_second (by omega), a2bBase64_third (by omega),
      a2bBase64_fourth (by omega), first_byte, second_byte, third_byte, ih]
    simp
  | case2 a b =>
    have ha := a.toNat_lt
    have hb := b.toNat_lt
    have hsecond := second_byte a b 0
    simp only [UInt8.toNat_zero, Nat.zero_div, Nat.add_zero] at hsecond
    simp only [urlsafeB64encode, cons_append, nil_append]
    rw [a2bBase64_first (by omega), a2bBase64_second (by omega), a2bBase64_third (by omega), first_byte,
      hsecond]
    simp [tokenPadding, a2bBase64]
  | case3 a =>
    have ha := a.toNat_lt
    have hfirst := first_byte a 0
    simp only [UInt8.toNat_zero, Nat.zero_div, Nat.add_zero] at hfirst
    simp only [urlsafeB64encode, cons_append, nil_append]
    rw [a2bBase64_first (by omega), a2bBase64_second (by omega), hfirst]
    simp [tokenPadding, a2bBase64, replicate]
  | case4 => simp [urlsafeB64encode, tokenPadding, a2bBase64]

theorem urlsafeB64encode_forall {P : Char → Prop} (hchar : ∀ n < 64, P (base64Char n)) (b : Bytes) :
    ∀ c ∈ urlsafeB64encode b, P c := by
  induction b using urlsafeB64encode.induct with
  | case1 a b c rest ih =>
    have ha := a.toNat_lt
    have hb := b.toNat_lt
    have hc := c.toNat_lt
    simp only [urlsafeB64encode, forall_mem_cons]
    exact ⟨hchar _ (by omega), hchar _ (by omega), hchar _ (by omega), hchar _ (by omega), ih⟩
  | case2 a b =>
    have ha := a.toNat_lt
    have hb := b.toNat_lt
    simp only [urlsafeB64encode, forall_mem_cons]
    exact ⟨hchar _ (by omega), hchar _ (by omega), hchar _ (by omega), forall_mem_nil _⟩
  | case3 a =>
    have ha := a.toNat_lt
    simp only [urlsafeB64encode, forall_mem_cons]
    exact ⟨hchar _ (by omega), hchar _ (by omega), forall_mem_nil _⟩
  | case4 => exact forall_mem_nil _

theorem urlsafeB64decode_encode (b : Bytes) :
    urlsafeB64decode (urlsafeB64encode b ++ tokenPadding (urlsafeB64encode b).length) = .ok b := by
  have hascii : (urlsafeB64encode b ++ tokenPadding (urlsafeB64encode b).length).all fun c => c.toNat < 128 := by
    rw [all_append, Bool.and_eq_true, all_eq_true, all_eq_true]
    have hchar : ∀ n < 64, (base64Char n).toNat < 128 := fun _ hn => (base64Digit_base64Char hn).2.1
    refine ⟨fun c hc => decide_eq_true (urlsafeB64encode_forall (P := (·.toNat < 128)) hchar b c hc), ?_⟩
    intro c hc
    rw [eq_of_mem_replicate hc]
    rfl
  rw [urlsafeB64decode, if_pos hascii, a2bBase64_encode, nil_append]

theorem encodeToken_eq_ok {key : Key} {token : String} : encodeToken key = .ok token ↔
      key.Encodable ∧ token = String.ofList (urlsafeB64encode (key.encode .logs)) := by
  simp only [encodeToken, bind_eq_ok, Key.toBytes_logs_eq_ok, pure_eq_ok]
  constructor
  · rintro ⟨_, ⟨hkey, rfl⟩, rfl⟩
    exact ⟨hkey, rfl⟩
  · rintro ⟨hkey, rfl⟩
    exact ⟨_, ⟨hkey, rfl⟩, rfl⟩

theorem decodeToken_encodeToken {key : Key} {token : String} (h : encodeToken key = .ok token) :
    decodeToken token = .ok key := by
  obtain ⟨hkey, rfl⟩ := encodeToken_eq_ok.mp h
  have hdecoded := urlsafeB64decode_encode (key.encode .logs)
  have hnonempty : String.ofList (urlsafeB64encode (key.encode .logs)) ≠ "" := by
    intro hnil
    rw [← String.toList_ofList (l := urlsafeB64encode (key.encode .logs)), hnil] at hdecoded
    have hempty : key.encode .logs = [] := (Except.ok.inj hdecoded).symm
    have hfound := Key.fromBytes_logs_encode hkey
    rw [hempty] at hfound
    cases hfound
  rw [decodeToken, if_neg hnonempty, String.toList_ofList, String.length_ofList, hdecoded]
  dsimp only
  rw [Key.fromBytes_logs_encode hkey]

end Tourillon
