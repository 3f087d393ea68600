import E2Guardian.ItemFile
import E2Guardian.UrlHosts

/- IPv4 addresses as text and as numbers, and what it is to be in a subnet. -/
namespace GuardianAddresses
open GuardianString GuardianUrls GuardianItemFile

structure Quad where
  a : UInt8
  b : UInt8
  c : UInt8
  d : UInt8
  deriving DecidableEq

def octet (n : UInt8) : Str := (Nat.toDigits 10 n.toNat).map ch

namespace Quad

def text (q : Quad) : Str := [ch '.'].intercalate [octet q.a, octet q.b, octet q.c, octet q.d]

def value (q : Quad) : UInt32 :=
  UInt32.ofNat (((q.a.toNat * 256 + q.b.toNat) * 256 + q.c.toNat) * 256 + q.d.toNat)

end Quad

/-- What is relied on of inet_aton: it reads dotted addresses. -/
def ReadsQuads (inet_aton : Str → Option UInt32) : Prop := ∀ q : Quad, inet_aton q.text = some q.value

def plainAton (s : Str) : Option UInt32 :=
  match s.splitOn (ch '.') with
  | [a, b, c, d] =>
    if [a, b, c, d].all GuardianUrlHosts.canonicalLabel then
      some (UInt32.ofNat (((decimal a * 256 + decimal b) * 256 + decimal c) * 256 + decimal d))
    else none
  | _ => none

theorem octet_canonical (n : UInt8) : GuardianUrlHosts.canonicalLabel (octet n) = true := by
  have all : ∀ m < 256, GuardianUrlHosts.canonicalLabel ((Nat.toDigits 10 m).map ch) = true := by decide +kernel
  exact all n.toNat n.toNat_lt

theorem octet_digits (n : UInt8) : ∀ b ∈ octet n, isDigit b = true := fun _ => isDigit_of_digits

theorem decimal_octet (n : UInt8) : decimal (octet n) = n.toNat := by
  have read := decimal_digits n.toNat (r := []) (by simp)
  rw [List.append_nil] at read
  exact read

theorem text_eq (q : Quad) : q.text =
    octet q.a ++ ch '.' :: (octet q.b ++ ch '.' :: (octet q.c ++ ch '.' :: octet q.d)) := by
  simp [Quad.text, List.intercalate_cons_cons, List.intercalate_singleton]

theorem text_byte {q : Quad} {b : UInt8} (inside : b ∈ q.text) : isDigit b = true ∨ b = ch '.' := by
  rw [text_eq] at inside
  simp only [List.mem_append, List.mem_cons] at inside
  rcases inside with digit | dot | digit | dot | digit | dot | digit
  · exact .inl (octet_digits _ b digit)
  · exact .inr dot
  · exact .inl (octet_digits _ b digit)
  · exact .inr dot
  · exact .inl (octet_digits _ b digit)
  · exact .inr dot
  · exact .inl (octet_digits _ b digit)

theorem splitOn_text (q : Quad) : q.text.splitOn (ch '.') = [octet q.a, octet q.b, octet q.c, octet q.d] := by
  refine List.splitOn_intercalate (ch '.') (fun l member dot => ?_) (List.cons_ne_nil _ _)
  have digits : ∀ b ∈ l, isDigit b = true := by
    simp only [List.mem_cons, List.not_mem_nil, or_false] at member
    rcases member with rfl | rfl | rfl | rfl <;> exact octet_digits _
  exact absurd (digits _ dot) (by decide)

theorem plainAton_reads : ReadsQuads plainAton := by
  intro q
  rw [plainAton, splitOn_text]
  simp only [List.all_cons, octet_canonical, List.all_nil, Bool.and_self, if_true, decimal_octet]
  rfl

/- Subnets. -/

theorem cidrMask_bit {m : Int} (low : 0 ≤ m) (high : m ≤ 32) (i : Nat) :
    (cidrMask m).toNat.testBit i = (decide (32 - m.toNat ≤ i) && decide (i < 32)) := by
  unfold cidrMask
  by_cases zero : m = 0
  · rw [if_pos zero, zero]
    simp
  · have shift : (32 - m).toNat.toUInt32.toNat % 32 = 32 - m.toNat := by
      simp only [Nat.toUInt32, UInt32.toNat_ofNat']
      omega
    rw [if_neg zero, UInt32.toNat_shiftLeft, shift, Nat.testBit_mod_two_pow, Nat.testBit_shiftLeft,
      show (0xFFFFFFFF : UInt32).toNat = 2 ^ 32 - 1 from rfl, Nat.testBit_two_pow_sub_one]
    by_cases inside : i < 32
    · by_cases behind : 32 - m.toNat ≤ i
      · simp [inside, behind]
        omega
      · simp [inside, behind]
    · simp [inside]

theorem same_prefix_iff {m : Int} (low : 0 ≤ m) (high : m ≤ 32) (x y : UInt32) :
    x &&& cidrMask m = y &&& cidrMask m ↔ x.toNat / 2 ^ (32 - m.toNat) = y.toNat / 2 ^ (32 - m.toNat) := by
  rw [← UInt32.toNat_inj, UInt32.toNat_and, UInt32.toNat_and]
  constructor
  · intro same
    refine Nat.eq_of_testBit_eq fun i => ?_
    have bit := congrArg (Nat.testBit · (i + (32 - m.toNat))) same
    simp only [Nat.testBit_and, cidrMask_bit low high] at bit
    rw [Nat.testBit_div_two_pow, Nat.testBit_div_two_pow]
    by_cases inside : i + (32 - m.toNat) < 32
    · simpa [inside] using bit
    · have outside : ∀ z : UInt32, z.toNat.testBit (i + (32 - m.toNat)) = false := fun z =>
        Nat.testBit_lt_two_pow (Nat.lt_of_lt_of_le z.toNat_lt (Nat.pow_le_pow_right (by decide) (by omega)))
      rw [outside, outside]
  · intro same
    refine Nat.eq_of_testBit_eq fun i => ?_
    simp only [Nat.testBit_and, cidrMask_bit low high]
    by_cases behind : 32 - m.toNat ≤ i
    · have bit := congrArg (Nat.testBit · (i - (32 - m.toNat))) same
      simp only [Nat.testBit_div_two_pow, Nat.sub_add_cancel behind] at bit
      rw [bit]
    · simp [behind]

end GuardianAddresses
