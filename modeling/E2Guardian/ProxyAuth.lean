import E2Guardian.HttpHeader
import Mathlib.Data.List.Basic

/- Base64 with padding: four symbols of six bits for three bytes. -/
namespace Base64

def pad : UInt8 := 61

def symbol (v : Nat) : UInt8 :=
  if v < 26 then UInt8.ofNat (65 + v)
  else if v < 52 then UInt8.ofNat (71 + v)
  else if v < 62 then UInt8.ofNat (v - 4)
  else if v = 62 then 43
  else 47

def sextets (a b c : UInt8) : Nat × Nat × Nat × Nat :=
  (a.toNat / 4, a.toNat % 4 * 16 + b.toNat / 16, b.toNat % 16 * 4 + c.toNat / 64, c.toNat % 64)

def encode : List UInt8 → List UInt8
  | [] => []
  | [a] => [symbol (sextets a 0 0).1, symbol (sextets a 0 0).2.1, pad, pad]
  | [a, b] => [symbol (sextets a b 0).1, symbol (sextets a b 0).2.1, symbol (sextets a b 0).2.2.1, pad]
  | a :: b :: c :: t =>
    symbol (sextets a b c).1 :: symbol (sextets a b c).2.1 :: symbol (sextets a b c).2.2.1 ::
      symbol (sextets a b c).2.2.2 :: encode t

def joined (v : Nat × Nat × Nat × Nat) : Nat := ((v.1 * 64 + v.2.1) * 64 + v.2.2.1) * 64 + v.2.2.2

def bytes (n : Nat) : List UInt8 := [UInt8.ofNat (n / 65536), UInt8.ofNat (n / 256), UInt8.ofNat n]

structure Small (v : Nat × Nat × Nat × Nat) : Prop where
  first : v.1 < 64
  second : v.2.1 < 64
  third : v.2.2.1 < 64
  fourth : v.2.2.2 < 64

theorem sextets_small (a b c : UInt8) : Small (sextets a b c) := by
  have aLess := a.toNat_lt
  have bLess := b.toNat_lt
  have cLess := c.toNat_lt
  constructor <;> simp only [sextets] <;> omega

theorem bytes_sextets (a b c : UInt8) : bytes (joined (sextets a b c)) = [a, b, c] := by
  have aLess := a.toNat_lt
  have bLess := b.toNat_lt
  have cLess := c.toNat_lt
  have whole : joined (sextets a b c) = a.toNat * 65536 + b.toNat * 256 + c.toNat := by
    simp only [joined, sextets]
    omega
  rw [whole, bytes]
  congr 1
  · apply UInt8.toNat_inj.mp
    rw [UInt8.toNat_ofNat']
    omega
  · congr 1
    · apply UInt8.toNat_inj.mp
      rw [UInt8.toNat_ofNat']
      omega
    · congr 1
      apply UInt8.toNat_inj.mp
      rw [UInt8.toNat_ofNat']
      omega

theorem symbol_ne_pad {v : Nat} (small : v < 64) : symbol v ≠ pad := by
  revert v
  decide

end Base64

/- Proxy credentials: getAuthData, decodeb64 and decode1b64. The loop wants a character behind each group of
   four, which is the carriage return that a header line ends with. -/
namespace GuardianProxyAuth
open GuardianString GuardianHttp Base64

def decode1b64 (c : UInt8) : UInt8 :=
  if c = ch '+' then 62
  else if c = ch '/' then 63
  else if c = ch '=' then 0
  else if ch '9' - c ≤ 0x3F then c + 4
  else if ch 'Z' - c ≤ 0x3F then c - 65
  else if ch 'z' - c ≤ 0x3F then c - 71
  else 0x80

def fourOf (c0 c1 c2 c3 : UInt8) : Nat :=
  let four := (decode1b64 c0).toNat
  let four := four <<< 6 ||| (decode1b64 c1).toNat
  let four := four <<< 6 ||| (decode1b64 c2).toNat
  four <<< 6 ||| (decode1b64 c3).toNat

def bytesOf (four : Nat) : Str :=
  [UInt8.ofNat ((four &&& 0xFF0000) >>> 16), UInt8.ofNat ((four &&& 0xFF00) >>> 8), UInt8.ofNat (four &&& 0xFF)]

def decodeb64 : Str → Str
  | c0 :: c1 :: c2 :: c3 :: c4 :: t => bytesOf (fourOf c0 c1 c2 c3) ++ decodeb64 (c4 :: t)
  | _ => []

def getAuthData (h : HTTPHeader) : Str :=
  match h.at_ .pproxyauthorization with
  | some line => decodeb64 (after (after line (str " ")) (str " "))
  | none => []

/- The bits of a group. -/

theorem mask_byte (n k : Nat) : UInt8.ofNat ((n >>> k) &&& 0xFF) = UInt8.ofNat (n / 2 ^ k) := by
  apply UInt8.toNat_inj.mp
  have mask : (n >>> k) &&& 0xFF = (n >>> k) % 2 ^ 8 := Nat.and_two_pow_sub_one_eq_mod (n >>> k) 8
  rw [UInt8.toNat_ofNat', UInt8.toNat_ofNat', mask, Nat.mod_mod, Nat.shiftRight_eq_div_pow]

theorem bytesOf_eq (n : Nat) : bytesOf n = bytes n := by
  have high : (n &&& 0xFF0000) >>> 16 = (n >>> 16) &&& 0xFF := Nat.shiftRight_and_distrib
  have middle : (n &&& 0xFF00) >>> 8 = (n >>> 8) &&& 0xFF := Nat.shiftRight_and_distrib
  have low := mask_byte n 0
  rw [Nat.shiftRight_zero, Nat.pow_zero, Nat.div_one] at low
  rw [bytesOf, high, middle, mask_byte, mask_byte, low]
  rfl

theorem decode_symbol {v : Nat} (small : v < 64) : (decode1b64 (symbol v)).toNat = v := by
  revert v
  decide

theorem shift_or {m v : Nat} (small : v < 64) : m <<< 6 ||| v = m * 64 + v := by
  rw [← Nat.shiftLeft_add_eq_or_of_lt small m, Nat.shiftLeft_eq]

theorem group_decoded {v : Nat × Nat × Nat × Nat} (small : Small v) {c0 c1 c2 c3 : UInt8}
    (zeroth : (decode1b64 c0).toNat = v.1) (first : (decode1b64 c1).toNat = v.2.1)
    (second : (decode1b64 c2).toNat = v.2.2.1) (third : (decode1b64 c3).toNat = v.2.2.2) :
    bytesOf (fourOf c0 c1 c2 c3) = bytes (joined v) := by
  rw [bytesOf_eq, fourOf, zeroth, first, second, third, shift_or small.second, shift_or small.third,
      shift_or small.fourth, joined]

theorem decodeb64_group (c0 c1 c2 c3 : UInt8) {t : Str} (behind : t ≠ []) :
    decodeb64 (c0 :: c1 :: c2 :: c3 :: t) = bytesOf (fourOf c0 c1 c2 c3) ++ decodeb64 t := by
  cases t with
  | nil => exact absurd rfl behind
  | cons c4 t => rw [decodeb64]

theorem pad_decoded : (decode1b64 pad).toNat = 0 := by decide

theorem count_symbol {v : Nat} (small : v < 64) (t : Str) : (symbol v :: t).count pad = t.count pad :=
  List.count_cons_of_ne (symbol_ne_pad small)

/-- Padding is taken for six zero bits, so that each sign of it gives a zero byte. -/
theorem decodeb64_encode (b : Str) (e : UInt8) :
    decodeb64 (encode b ++ [e]) = b ++ List.replicate ((encode b).count pad) 0 := by
  have behind (t : Str) : encode t ++ [e] ≠ [] := List.append_ne_nil_of_right_ne_nil _ (List.cons_ne_nil e [])
  induction b using encode.induct with
  | case1 => rfl
  | case2 a =>
    have small := sextets_small a 0 0
    have group := group_decoded small (decode_symbol small.first) (decode_symbol small.second) pad_decoded pad_decoded
    rw [encode, count_symbol small.first, count_symbol small.second]
    simp only [List.cons_append, List.nil_append]
    rw [decodeb64_group _ _ _ _ (List.cons_ne_nil e []), group, bytes_sextets]
    rfl
  | case3 a b =>
    have small := sextets_small a b 0
    have group := group_decoded small (decode_symbol small.first) (decode_symbol small.second)
      (decode_symbol small.third) pad_decoded
    rw [encode, count_symbol small.first, count_symbol small.second, count_symbol small.third]
    simp only [List.cons_append, List.nil_append]
    rw [decodeb64_group _ _ _ _ (List.cons_ne_nil e []), group, bytes_sextets]
    rfl
  | case4 a b c t ih =>
    have small := sextets_small a b c
    have group := group_decoded small (decode_symbol small.first) (decode_symbol small.second)
      (decode_symbol small.third) (decode_symbol small.fourth)
    rw [encode, count_symbol small.first, count_symbol small.second, count_symbol small.third, count_symbol small.fourth]
    simp only [List.cons_append]
    rw [decodeb64_group _ _ _ _ (behind t), group, bytes_sextets, ih]
    rfl

/- The header line. -/

theorem after_words {name scheme : Str} (named : ch ' ' ∉ name) (schemed : ch ' ' ∉ scheme) (data : Str) :
    after (after (name ++ ch ' ' :: (scheme ++ ch ' ' :: data)) (str " ")) (str " ") = data := by
  have cut {word rest : Str} (free : ch ' ' ∉ word) : after (word ++ ch ' ' :: rest) [ch ' '] = rest := by
    rw [after_byte, List.dropWhile_append_of_pos]
    · simp
    · intro c member
      simpa using fun same : c = ch ' ' => free (same ▸ member)
  exact (congrArg (after · [ch ' ']) (cut named)).trans (cut schemed)

/-- The credentials in the line that pproxyauthorization refers to. -/
theorem credentials_recovered (b : Str) :
    decodeb64 (encode b ++ [ch '\r']) = b ++ List.replicate ((encode b).count (ch '=')) 0 ∧
      ∀ h : HTTPHeader, ∀ name scheme : Str, ch ' ' ∉ name → ch ' ' ∉ scheme →
        h.at_ .pproxyauthorization = some (name ++ ch ' ' :: (scheme ++ ch ' ' :: (encode b ++ [ch '\r']))) →
          getAuthData h = b ++ List.replicate ((encode b).count (ch '=')) 0 := by
  refine ⟨decodeb64_encode b _, fun h name scheme named schemed line => ?_⟩
  rw [getAuthData, line]
  dsimp only
  rw [after_words named schemed]
  exact decodeb64_encode b _

def secretRequest : HTTPHeader :=
  { HTTPHeader.made false none with
    header := [⟨0, str "GET http://a.org/ HTTP/1.1\r"⟩, ⟨1, str "Proxy-Authorization: Basic dXNlcjpzZWNyZXQ=\r"⟩]
    pointer := fun p => if p = .pproxyauthorization then some 1 else none }

theorem secret_recovered : decodeb64 (str "dXNlcjpzZWNyZXQ=\r") = str "user:secret" ++ [0] ∧
    getAuthData secretRequest = str "user:secret" ++ [0] :=
  ⟨(credentials_recovered (str "user:secret")).1,
    (credentials_recovered (str "user:secret")).2 secretRequest (str "Proxy-Authorization:") (str "Basic")
      (by decide) (by decide) (by decide)⟩

end GuardianProxyAuth
