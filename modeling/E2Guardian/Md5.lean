import E2Guardian.Strings
import Mathlib.Data.List.Basic

/- Digests that take a message in blocks of n elements: what is taken up does not depend on where the message is cut, as long
   as it is cut between blocks. -/
namespace BlockDigest
variable {σ α : Type} (n : Nat) (f : σ → List α → σ)

def absorb : Nat → σ → List α → σ
  | 0, s, _ => s
  | blocks + 1, s, l => absorb blocks (f s (l.take n)) (l.drop n)

theorem absorb_add (j k : Nat) (s : σ) (l : List α) :
    absorb n f (j + k) s l = absorb n f k (absorb n f j s l) (l.drop (n * j)) := by
  induction j generalizing s l with
  | zero => rw [Nat.zero_add, Nat.mul_zero, List.drop_zero, absorb]
  | succ j ih =>
    rw [Nat.succ_add, absorb, ih, absorb, List.drop_drop, Nat.mul_succ, Nat.add_comm n]

theorem absorb_front (k : Nat) (s : σ) {a : List α} (enough : n * k ≤ a.length) (b : List α) :
    absorb n f k s (a ++ b) = absorb n f k s a := by
  induction k generalizing s a with
  | zero => rfl
  | succ k ih =>
    rw [Nat.mul_succ] at enough
    have first : n ≤ a.length := Nat.le_trans (Nat.le_add_left n _) enough
    rw [absorb, absorb, List.take_append_of_le_length first, List.drop_append_of_le_length first]
    exact ih _ (by rw [List.length_drop]; omega)

theorem absorb_append {j : Nat} {a : List α} (whole : a.length = n * j) (k : Nat) (s : σ) (b : List α) :
    absorb n f (j + k) s (a ++ b) = absorb n f k (absorb n f j s a) b := by
  rw [absorb_add, absorb_front n f j s (Nat.le_of_eq whole.symm), ← whole, List.drop_left]

end BlockDigest

/- md5.cpp: the digest of RFC 1321 of a message that comes in pieces, with a buffer of two blocks between the pieces. -/
namespace GuardianMd5
open GuardianString BlockDigest

structure Registers where
  A : UInt32
  B : UInt32
  C : UInt32
  D : UInt32
  deriving DecidableEq, Repr

def Registers.init : Registers := ⟨0x67452301, 0xefcdab89, 0x98badcfe, 0x10325476⟩

def Registers.add (r s : Registers) : Registers := ⟨r.A + s.A, r.B + s.B, r.C + s.C, r.D + s.D⟩

def wordAt (l : Str) (k : Nat) : UInt32 :=
  UInt32.ofNat ((l.getD (4 * k) 0).toNat + 256 * ((l.getD (4 * k + 1) 0).toNat +
    256 * ((l.getD (4 * k + 2) 0).toNat + 256 * (l.getD (4 * k + 3) 0).toNat)))

def bytesOf (w : UInt32) : Str :=
  [UInt8.ofNat w.toNat, UInt8.ofNat (w.toNat / 256), UInt8.ofNat (w.toNat / 65536), UInt8.ofNat (w.toNat / 16777216)]

def ff (b c d : UInt32) : UInt32 := d ^^^ (b &&& (c ^^^ d))
def fg (b c d : UInt32) : UInt32 := ff d b c
def fh (b c d : UInt32) : UInt32 := b ^^^ c ^^^ d
def fi (b c d : UInt32) : UInt32 := c ^^^ (b ||| ~~~d)

def cyclic (w s : UInt32) : UInt32 := w <<< s ||| w >>> (32 - s)

/-- `op(f, a, b, c, d, k, s, T)`, after which the names of the registers are turned on by one place, as from one line to the
    next. -/
def op (f : UInt32 → UInt32 → UInt32 → UInt32) (block : Str) (r : Registers) (row : Nat × UInt32 × UInt32) : Registers :=
  let (k, s, T) := row
  ⟨r.D, cyclic (r.A + (f r.B r.C r.D + wordAt block k + T)) s + r.B, r.B, r.C⟩

def round1 : List (Nat × UInt32 × UInt32) :=
  [(0, 7, 0xd76aa478), (1, 12, 0xe8c7b756), (2, 17, 0x242070db), (3, 22, 0xc1bdceee),
   (4, 7, 0xf57c0faf), (5, 12, 0x4787c62a), (6, 17, 0xa8304613), (7, 22, 0xfd469501),
   (8, 7, 0x698098d8), (9, 12, 0x8b44f7af), (10, 17, 0xffff5bb1), (11, 22, 0x895cd7be),
   (12, 7, 0x6b901122), (13, 12, 0xfd987193), (14, 17, 0xa679438e), (15, 22, 0x49b40821)]

def round2 : List (Nat × UInt32 × UInt32) :=
  [(1, 5, 0xf61e2562), (6, 9, 0xc040b340), (11, 14, 0x265e5a51), (0, 20, 0xe9b6c7aa),
   (5, 5, 0xd62f105d), (10, 9, 0x02441453), (15, 14, 0xd8a1e681), (4, 20, 0xe7d3fbc8),
   (9, 5, 0x21e1cde6), (14, 9, 0xc33707d6), (3, 14, 0xf4d50d87), (8, 20, 0x455a14ed),
   (13, 5, 0xa9e3e905), (2, 9, 0xfcefa3f8), (7, 14, 0x676f02d9), (12, 20, 0x8d2a4c8a)]

def round3 : List (Nat × UInt32 × UInt32) :=
  [(5, 4, 0xfffa3942), (8, 11, 0x8771f681), (11, 16, 0x6d9d6122), (14, 23, 0xfde5380c),
   (1, 4, 0xa4beea44), (4, 11, 0x4bdecfa9), (7, 16, 0xf6bb4b60), (10, 23, 0xbebfbc70),
   (13, 4, 0x289b7ec6), (0, 11, 0xeaa127fa), (3, 16, 0xd4ef3085), (6, 23, 0x04881d05),
   (9, 4, 0xd9d4d039), (12, 11, 0xe6db99e5), (15, 16, 0x1fa27cf8), (2, 23, 0xc4ac5665)]

def round4 : List (Nat × UInt32 × UInt32) :=
  [(0, 6, 0xf4292244), (7, 10, 0x432aff97), (14, 15, 0xab9423a7), (5, 21, 0xfc93a039),
   (12, 6, 0x655b59c3), (3, 10, 0x8f0ccc92), (10, 15, 0xffeff47d), (1, 21, 0x85845dd1),
   (8, 6, 0x6fa87e4f), (15, 10, 0xfe2ce6e0), (6, 15, 0xa3014314), (13, 21, 0x4e0811a1),
   (4, 6, 0xf7537e82), (11, 10, 0xbd3af235), (2, 15, 0x2ad7d2bb), (9, 21, 0xeb86d391)]

def processed (r : Registers) (block : Str) : Registers :=
  let r1 := round1.foldl (op ff block) r
  let r2 := round2.foldl (op fg block) r1
  let r3 := round3.foldl (op fh block) r2
  (round4.foldl (op fi block) r3).add r

structure Md5Ctx where
  registers : Registers
  total0 : UInt32
  total1 : UInt32
  buflen : Nat
  buffer : Str -- 128 bytes
  deriving DecidableEq, Repr

def md5InitCtx (buffer : Str) : Md5Ctx := ⟨.init, 0, 0, 0, buffer⟩

def count (ctx : Md5Ctx) (len : Nat) : Md5Ctx :=
  let total0 := ctx.total0 + UInt32.ofNat len
  { ctx with total0 := total0, total1 := if total0.toNat < len then ctx.total1 + 1 else ctx.total1 }

def md5ProcessBlock (buffer : Str) (len : Nat) (ctx : Md5Ctx) : Md5Ctx :=
  { count ctx len with registers := absorb 64 processed (len / 64) ctx.registers buffer }

@[simp] theorem process_buflen (bytes : Str) (len : Nat) (ctx : Md5Ctx) : (md5ProcessBlock bytes len ctx).buflen = ctx.buflen :=
  rfl

def memcpy (place : Nat) (bytes buffer : Str) : Str := buffer.take place ++ bytes ++ buffer.drop (place + bytes.length)

def fullWords (left_over len : Nat) : Nat :=
  let add := if 128 - left_over > len then len else 128 - left_over
  add - add % 4

def flush (ctx : Md5Ctx) : Md5Ctx :=
  if ctx.buflen > 64 then
    let kept := ctx.buflen % 64
    { md5ProcessBlock ctx.buffer (ctx.buflen / 64 * 64) ctx with
      buflen := kept
      buffer := memcpy 0 ((ctx.buffer.drop (ctx.buflen / 64 * 64)).take kept) ctx.buffer }
  else ctx

def fillBuffer (data : Str) (ctx : Md5Ctx) : Str × Md5Ctx :=
  if ctx.buflen ≠ 0 then
    let add := fullWords ctx.buflen data.length
    (data.drop add,
      flush { ctx with buffer := memcpy ctx.buflen (data.take add) ctx.buffer, buflen := ctx.buflen + add })
  else (data, ctx)

def wholeBlocks (data : Str) (ctx : Md5Ctx) : Str × Md5Ctx :=
  if data.length > 64 then
    (data.drop (data.length / 64 * 64), md5ProcessBlock data (data.length / 64 * 64) ctx)
  else (data, ctx)

def keepRest (data : Str) (ctx : Md5Ctx) : Md5Ctx :=
  if data.length > 0 then
    let left_over := ctx.buflen + data.length
    let ctx := { ctx with buffer := memcpy ctx.buflen data ctx.buffer, buflen := left_over }
    if left_over ≥ 64 then
      { md5ProcessBlock ctx.buffer 64 ctx with
        buflen := left_over - 64
        buffer := memcpy 0 ((ctx.buffer.drop 64).take (left_over - 64)) ctx.buffer }
    else ctx
  else ctx

def md5ProcessBytes (data : Str) (ctx : Md5Ctx) : Md5Ctx :=
  let (data, ctx) := fillBuffer data ctx
  let (data, ctx) := wholeBlocks data ctx
  keepRest data ctx

def fillbuf : Str := 0x80 :: List.replicate 63 0

def md5ReadCtx (ctx : Md5Ctx) : Str :=
  bytesOf ctx.registers.A ++ bytesOf ctx.registers.B ++ bytesOf ctx.registers.C ++ bytesOf ctx.registers.D

def padOf (bytes : Nat) : Nat := if bytes ≥ 56 then 64 + 56 - bytes else 56 - bytes

def prolog (bytes : Nat) (ctx : Md5Ctx) : Str :=
  let padded := memcpy bytes (fillbuf.take (padOf bytes)) ctx.buffer
  let low := memcpy (bytes + padOf bytes) (bytesOf (ctx.total0 <<< 3)) padded
  memcpy (bytes + padOf bytes + 4) (bytesOf (ctx.total1 <<< 3 ||| ctx.total0 >>> 29)) low

def md5FinishCtx (ctx : Md5Ctx) : Str :=
  let bytes := ctx.buflen
  let ctx := count ctx bytes
  md5ReadCtx (md5ProcessBlock (prolog bytes ctx) (bytes + padOf bytes + 8) ctx)

def md5Buffer (garbage buffer : Str) : Str := md5FinishCtx (md5ProcessBytes buffer (md5InitCtx garbage))

def octet (b : UInt8) : Str :=
  let digit (d : UInt8) : UInt8 := if d < 10 then ch '0' + d else ch 'A' + (d - 10)
  [digit (b / 16), digit (b % 16)]

def md5 (garbage text : Str) : Str := (md5Buffer garbage text).flatMap octet

/-- The do-while loop over fread. The stream is the portions that it gives, whatever room there is; the end is where it gives
    nothing. The result is what is in the buffer, what came last, and what the stream still has. -/
def readBlock (buffer : Str) : List Str → Str × Str × List Str
  | [] => (buffer, [], [])
  | portion :: later =>
    let room := 4096 - buffer.length
    if portion.length < room then
      if portion.length ≠ 0 then readBlock (buffer ++ portion) later else (buffer, [], later)
    else (buffer ++ portion.take room, portion.take room, if portion.length = room then later else portion.drop room :: later)

theorem readBlock_reads (buffer : Str) (free : buffer.length < 4096) (stream : List Str) :
    (readBlock buffer stream).1 ++ (readBlock buffer stream).2.2.flatten = buffer ++ stream.flatten ∧
      if (readBlock buffer stream).2.1 = [] then (readBlock buffer stream).1.length < 4096
      else (readBlock buffer stream).1.length = 4096 := by
  induction stream generalizing buffer with
  | nil => exact ⟨rfl, by rw [readBlock, if_pos rfl]; exact free⟩
  | cons portion later ih =>
    rw [readBlock, List.flatten_cons]
    split
    · rename_i short
      split
      · have taken := ih (buffer ++ portion) (by rw [List.length_append]; omega)
        rw [List.append_assoc] at taken
        exact taken
      · rename_i nothing
        rw [List.length_eq_zero_iff.mp (not_ne_iff.mp nothing), List.nil_append, if_pos rfl]
        exact ⟨rfl, free⟩
    · rename_i enough
      have size : (portion.take (4096 - buffer.length)).length = 4096 - buffer.length :=
        List.length_take_of_le (Nat.not_lt.mp enough)
      have some : portion.take (4096 - buffer.length) ≠ [] := by
        rw [← List.length_pos_iff, size]; omega
      rw [if_neg some, List.length_append, size]
      constructor
      · split
        · rename_i exact_
          rw [← exact_, List.take_length]
          exact List.append_assoc _ _ _
        · rw [List.flatten_cons, List.append_assoc, ← List.append_assoc (portion.take _), List.take_append_drop]
      · omega

/-- Nothing comes only at the end, when no portion of the stream is empty. -/
theorem readBlock_end {stream : List Str} (portions : ∀ portion ∈ stream, portion ≠ []) (buffer : Str)
    (free : buffer.length < 4096) :
    (∀ portion ∈ (readBlock buffer stream).2.2, portion ≠ []) ∧
      ((readBlock buffer stream).2.1 = [] → (readBlock buffer stream).2.2 = []) := by
  induction stream generalizing buffer with
  | nil => exact ⟨portions, fun _ => rfl⟩
  | cons portion later ih =>
    obtain ⟨first, others⟩ := List.forall_mem_cons.mp portions
    rw [readBlock]
    split
    · rename_i short
      rw [if_pos (mt List.length_eq_zero_iff.mp first)]
      exact ih others _ (by rw [List.length_append]; omega)
    · rename_i enough
      have size : (portion.take (4096 - buffer.length)).length = 4096 - buffer.length :=
        List.length_take_of_le (Nat.not_lt.mp enough)
      constructor
      · split
        · exact others
        · refine List.forall_mem_cons.mpr ⟨?_, others⟩
          rw [← List.length_pos_iff, List.length_drop]
          omega
      · intro nothing
        have none := congrArg List.length nothing
        rw [size, List.length_nil] at none
        omega

theorem readBlock_less {stream : List Str} (some : (readBlock [] stream).2.1 ≠ []) :
    (readBlock [] stream).2.2.flatten.length < stream.flatten.length := by
  obtain ⟨same, full⟩ := readBlock_reads [] (by decide) stream
  rw [if_neg some] at full
  have size := congrArg List.length same
  rw [List.length_append, List.nil_append] at size
  omega

def readBlocks (ctx : Md5Ctx) (stream : List Str) : Md5Ctx × Str :=
  let read := readBlock [] stream
  if read.2.1 ≠ [] then readBlocks (md5ProcessBlock read.1 4096 ctx) read.2.2 else (ctx, read.1)
termination_by stream.flatten.length
decreasing_by exact readBlock_less ‹_›

def md5Stream (garbage : Str) (stream : List Str) (ferror : Bool) : Option Str :=
  if ferror then none
  else
    let (ctx, buffer) := readBlocks (md5InitCtx garbage) stream
    some (md5FinishCtx (if buffer.length > 0 then md5ProcessBytes buffer ctx else ctx))

/- The digest as RFC 1321 has it. -/

def auxF (x y z : UInt32) : UInt32 := x &&& y ||| ~~~x &&& z
def auxG (x y z : UInt32) : UInt32 := x &&& z ||| y &&& ~~~z
def auxH (x y z : UInt32) : UInt32 := x ^^^ y ^^^ z
def auxI (x y z : UInt32) : UInt32 := y ^^^ (x ||| ~~~z)

def sines : List UInt32 :=
  [0xd76aa478, 0xe8c7b756, 0x242070db, 0xc1bdceee, 0xf57c0faf, 0x4787c62a, 0xa8304613, 0xfd469501,
   0x698098d8, 0x8b44f7af, 0xffff5bb1, 0x895cd7be, 0x6b901122, 0xfd987193, 0xa679438e, 0x49b40821,
   0xf61e2562, 0xc040b340, 0x265e5a51, 0xe9b6c7aa, 0xd62f105d, 0x02441453, 0xd8a1e681, 0xe7d3fbc8,
   0x21e1cde6, 0xc33707d6, 0xf4d50d87, 0x455a14ed, 0xa9e3e905, 0xfcefa3f8, 0x676f02d9, 0x8d2a4c8a,
   0xfffa3942, 0x8771f681, 0x6d9d6122, 0xfde5380c, 0xa4beea44, 0x4bdecfa9, 0xf6bb4b60, 0xbebfbc70,
   0x289b7ec6, 0xeaa127fa, 0xd4ef3085, 0x04881d05, 0xd9d4d039, 0xe6db99e5, 0x1fa27cf8, 0xc4ac5665,
   0xf4292244, 0x432aff97, 0xab9423a7, 0xfc93a039, 0x655b59c3, 0x8f0ccc92, 0xffeff47d, 0x85845dd1,
   0x6fa87e4f, 0xfe2ce6e0, 0xa3014314, 0x4e0811a1, 0xf7537e82, 0xbd3af235, 0x2ad7d2bb, 0xeb86d391]

def mixing (i : Nat) : (UInt32 → UInt32 → UInt32 → UInt32) × Nat × List Nat :=
  if i < 16 then (auxF, i % 16, [7, 12, 17, 22])
  else if i < 32 then (auxG, (5 * i + 1) % 16, [5, 9, 14, 20])
  else if i < 48 then (auxH, (3 * i + 5) % 16, [4, 11, 16, 23])
  else (auxI, 7 * i % 16, [6, 10, 15, 21])

def rotated (w : UInt32) (s : Nat) : UInt32 := ⟨w.toBitVec.rotateLeft s⟩

def operation (block : Str) (r : Registers) (i : Nat) : Registers :=
  let (f, k, shifts) := mixing i
  ⟨r.D, r.B + rotated (r.A + f r.B r.C r.D + wordAt block k + sines.getD i 0) (shifts.getD (i % 4) 0), r.B, r.C⟩

def compressed (r : Registers) (block : Str) : Registers := ((List.range 64).foldl (operation block) r).add r

theorem ff_is (b c d : UInt32) : ff b c d = auxF b c d := by
  apply UInt32.toBitVec_inj.mp
  simp only [ff, auxF, UInt32.toBitVec_xor, UInt32.toBitVec_and, UInt32.toBitVec_or, UInt32.toBitVec_not]
  ext i h
  simp only [BitVec.getElem_xor, BitVec.getElem_and, BitVec.getElem_or, BitVec.getElem_not]
  cases b.toBitVec[i] <;> cases c.toBitVec[i] <;> cases d.toBitVec[i] <;> rfl

theorem fg_is (b c d : UInt32) : fg b c d = auxG b c d := by
  rw [fg, ff_is, auxF, auxG, UInt32.and_comm d b, UInt32.and_comm _ c]

theorem cyclic_is {w s : UInt32} (some : 0 < s.toNat) (small : s.toNat < 32) : cyclic w s = rotated w s.toNat := by
  have turn : (32 - s).toNat = 32 - s.toNat := by
    rw [UInt32.toNat_sub_of_le _ _ (by rw [UInt32.le_iff_toNat_le]; exact Nat.le_of_lt small)]; rfl
  apply UInt32.toBitVec_inj.mp
  rw [cyclic, rotated, BitVec.rotateLeft_def, UInt32.toBitVec_or, UInt32.toBitVec_shiftLeft, UInt32.toBitVec_shiftRight,
    Nat.mod_eq_of_lt small]
  have left : (s.toBitVec % 32).toNat = s.toNat := by
    rw [BitVec.toNat_umod]; exact Nat.mod_eq_of_lt small
  have right : ((32 - s).toBitVec % 32).toNat = 32 - s.toNat := by
    rw [BitVec.toNat_umod, UInt32.toNat_toBitVec, turn]
    exact Nat.mod_eq_of_lt (Nat.sub_lt (by decide) some)
  rw [BitVec.shiftLeft_eq', BitVec.ushiftRight_eq', left, right]

def row (i : Nat) : Nat × UInt32 × UInt32 :=
  ((mixing i).2.1, UInt32.ofNat ((mixing i).2.2.getD (i % 4) 0), sines.getD i 0)

theorem row_turns : ∀ i < 64, 0 < (row i).2.1.toNat ∧ (row i).2.1.toNat < 32 ∧
    (row i).2.1.toNat = (mixing i).2.2.getD (i % 4) 0 := by decide

theorem operation_of_row {f : UInt32 → UInt32 → UInt32 → UInt32} {i : Nat} (few : i < 64)
    (same : ∀ b c d, f b c d = (mixing i).1 b c d) (r : Registers) (block : Str) :
    op f block r (row i) = operation block r i := by
  obtain ⟨some, small, turn⟩ := row_turns i few
  have cyclic := cyclic_is (w := r.A + ((mixing i).1 r.B r.C r.D + wordAt block (mixing i).2.1 + sines.getD i 0)) some small
  rw [turn] at cyclic
  simp only [op, row, operation] at cyclic ⊢
  rw [same, cyclic, UInt32.add_comm _ r.B]
  simp only [UInt32.add_assoc]

/-- A round of the code, whose rows are those of sixteen operations with one function. -/
theorem round_is {f g : UInt32 → UInt32 → UInt32 → UInt32} (same : ∀ b c d, f b c d = g b c d) {first : Nat}
    (few : first + 16 ≤ 64) (function : ∀ i ∈ List.range' first 16, (mixing i).1 = g) {rows : List (Nat × UInt32 × UInt32)}
    (listed : rows = (List.range' first 16).map row) (r : Registers) (block : Str) :
    rows.foldl (op f block) r = (List.range' first 16).foldl (operation block) r := by
  rw [listed, List.foldl_map]
  apply List.foldl_ext
  intro r i member
  have few : i < 64 := by rw [List.mem_range'_1] at member; omega
  exact operation_of_row few (by rw [function i member]; exact same) r block

theorem mixing_function (k : Nat) (few : k < 4) (i : Nat) (member : i ∈ List.range' (16 * k) 16) :
    (mixing i).1 = [auxF, auxG, auxH, auxI].getD k auxI := by
  rw [List.mem_range'_1] at member
  obtain rfl | rfl | rfl | rfl : k = 0 ∨ k = 1 ∨ k = 2 ∨ k = 3 := by omega
  all_goals
    unfold mixing
    split_ifs <;> first | rfl | omega

theorem processed_is (r : Registers) (block : Str) : processed r block = compressed r block := by
  have steps : List.range 64 = List.range' 0 16 ++ List.range' 16 16 ++ List.range' 32 16 ++ List.range' 48 16 := by decide
  rw [processed, compressed, steps, List.foldl_append, List.foldl_append, List.foldl_append,
    round_is ff_is (by decide) (mixing_function 0 (by decide)) (by decide : round1 = _),
    round_is fg_is (by decide) (mixing_function 1 (by decide)) (by decide : round2 = _),
    round_is (f := fh) (g := auxH) (fun _ _ _ => rfl) (by decide) (mixing_function 2 (by decide)) (by decide : round3 = _),
    round_is (f := fi) (g := auxI) (fun _ _ _ => rfl) (by decide) (mixing_function 3 (by decide)) (by decide : round4 = _)]

/-- The message as the document pads it: a one bit, zeros, and the length in bits, low byte first. -/
def padded (m : Str) : Str :=
  m ++ 0x80 :: List.replicate ((119 - m.length % 64) % 64) 0 ++
    (List.range 8).map fun i => UInt8.ofNat (8 * m.length / 256 ^ i)

def output (r : Registers) : Str := bytesOf r.A ++ bytesOf r.B ++ bytesOf r.C ++ bytesOf r.D

def digest (m : Str) : Str := output (absorb 64 compressed ((padded m).length / 64) .init (padded m))

def total (ctx : Md5Ctx) : Nat := ctx.total0.toNat + 4294967296 * ctx.total1.toNat

theorem total_count (ctx : Md5Ctx) {len : Nat} (small : len < 4294967296) :
    total (count ctx len) = (total ctx + len) % 18446744073709551616 := by
  have low := ctx.total0.toNat_lt
  have high := ctx.total1.toNat_lt
  have size : (UInt32.ofNat len).toNat = len := UInt32.toNat_ofNat_of_lt' small
  simp only [total, count, UInt32.toNat_add, size]
  split
  · rename_i carried
    rw [UInt32.toNat_add, show (1 : UInt32).toNat = 1 from rfl]
    omega
  · omega

structure Done (ctx : Md5Ctx) (blocks : Nat) (m : Str) : Prop where
  whole : m.length = 64 * blocks
  registers : ctx.registers = absorb 64 processed blocks .init m
  counted : total ctx = m.length % 18446744073709551616

theorem done_init (garbage : Str) : Done (md5InitCtx garbage) 0 [] := ⟨rfl, rfl, rfl⟩

theorem registers_process (ctx : Md5Ctx) {blocks : Nat} {m : Str} (whole : m.length = 64 * blocks)
    (registers : ctx.registers = absorb 64 processed blocks .init m) (more : Nat) {bytes : Str}
    (enough : 64 * more ≤ bytes.length) :
    (md5ProcessBlock bytes (64 * more) ctx).registers =
      absorb 64 processed (blocks + more) .init (m ++ bytes.take (64 * more)) := by
  have taken : (bytes.take (64 * more)).length = 64 * more := List.length_take_of_le enough
  have same := absorb_front 64 processed more ctx.registers (Nat.le_of_eq taken.symm) (bytes.drop (64 * more))
  rw [List.take_append_drop] at same
  rw [absorb_append 64 processed whole, ← registers, ← same, md5ProcessBlock, Nat.mul_div_cancel_left _ (by decide)]

theorem done_process {ctx : Md5Ctx} {blocks : Nat} {m : Str} (done : Done ctx blocks m) (more : Nat) {bytes : Str}
    (enough : 64 * more ≤ bytes.length) (small : 64 * more < 4294967296) :
    Done (md5ProcessBlock bytes (64 * more) ctx) (blocks + more) (m ++ bytes.take (64 * more)) := by
  have taken : (bytes.take (64 * more)).length = 64 * more := List.length_take_of_le enough
  refine ⟨?_, registers_process ctx done.whole done.registers more enough, ?_⟩
  · rw [List.length_append, taken, done.whole, Nat.mul_add]
  · rw [List.length_append, taken]
    change total (count ctx (64 * more)) = _
    rw [total_count ctx small, done.counted, Nat.mod_add_mod]

/-- What the context holds after a message m: its first blocks have been processed, and the rest is in the buffer. -/
structure Holds (ctx : Md5Ctx) (m : Str) : Prop where
  room : ctx.buffer.length = 128
  within : ctx.buflen ≤ 128
  split : ∃ blocks front, Done ctx blocks front ∧ front ++ ctx.buffer.take ctx.buflen = m

theorem length_memcpy {place : Nat} {bytes buffer : Str} (fits : place + bytes.length ≤ buffer.length) :
    (memcpy place bytes buffer).length = buffer.length := by
  rw [memcpy, List.length_append, List.length_append, List.length_take, List.length_drop]
  omega

theorem take_memcpy {place : Nat} (bytes : Str) {buffer : Str} (fits : place ≤ buffer.length) :
    (memcpy place bytes buffer).take (place + bytes.length) = buffer.take place ++ bytes := by
  have front : (buffer.take place ++ bytes).length = place + bytes.length := by
    rw [List.length_append, List.length_take_of_le fits]
  rw [memcpy, ← front, List.take_left']
  rfl

theorem holds_store {ctx : Md5Ctx} {m : Str} (holds : Holds ctx m) (bytes : Str) (fits : ctx.buflen + bytes.length ≤ 128) :
    Holds { ctx with buffer := memcpy ctx.buflen bytes ctx.buffer, buflen := ctx.buflen + bytes.length } (m ++ bytes) := by
  obtain ⟨blocks, front, done, rest⟩ := holds.split
  have place : ctx.buflen ≤ ctx.buffer.length := by rw [holds.room]; exact holds.within
  refine ⟨?_, fits, blocks, front, ⟨done.whole, done.registers, done.counted⟩, ?_⟩
  · rw [← holds.room] at fits ⊢
    exact length_memcpy fits
  · change front ++ (memcpy ctx.buflen bytes ctx.buffer).take (ctx.buflen + bytes.length) = m ++ bytes
    rw [take_memcpy bytes place, ← List.append_assoc, rest]

/-- Blocks at the front of the buffer are processed, and what is after them is moved to the front. -/
theorem holds_flush {ctx : Md5Ctx} {m : Str} (holds : Holds ctx m) (more : Nat) (enough : 64 * more ≤ ctx.buflen) :
    Holds { md5ProcessBlock ctx.buffer (64 * more) ctx with
      buflen := ctx.buflen - 64 * more
      buffer := memcpy 0 ((ctx.buffer.drop (64 * more)).take (ctx.buflen - 64 * more)) ctx.buffer } m := by
  obtain ⟨blocks, front, done, rest⟩ := holds.split
  have room := holds.room
  have within := holds.within
  have kept : ((ctx.buffer.drop (64 * more)).take (ctx.buflen - 64 * more)).length = ctx.buflen - 64 * more := by
    rw [List.length_take, List.length_drop]
    omega
  have processed := @done_process _ _ _ done more ctx.buffer (by omega) (by omega)
  refine ⟨?_, ?_, _, _, ⟨processed.whole, processed.registers, processed.counted⟩, ?_⟩
  · rw [← room]
    exact length_memcpy (by rw [kept]; omega)
  · exact Nat.le_trans (Nat.sub_le _ _) within
  · have moved := take_memcpy ((ctx.buffer.drop (64 * more)).take (ctx.buflen - 64 * more)) (Nat.zero_le ctx.buffer.length)
    rw [kept, Nat.zero_add, List.take_zero, List.nil_append] at moved
    change _ ++ List.take (ctx.buflen - 64 * more) (memcpy 0 _ ctx.buffer) = m
    rw [moved, List.append_assoc, ← List.take_add, Nat.add_sub_cancel' enough, rest]

/-- A part of the data that has been taken up, after a message m, and what is left of it. -/
structure TakenUp (m data : Str) (after : Str × Md5Ctx) : Prop where
  holds : ∃ front, front ++ after.1 = data ∧ Holds after.2 (m ++ front)
  few : after.2.buflen ≤ 64

theorem fullWords_le (left_over len : Nat) : fullWords left_over len ≤ len ∧ fullWords left_over len ≤ 128 - left_over := by
  rw [fullWords]
  split <;> omega

theorem holds_flushed {ctx : Md5Ctx} {m : Str} (holds : Holds ctx m) : Holds (flush ctx) m := by
  rw [flush]
  split
  · have flushed := holds_flush holds (ctx.buflen / 64) (Nat.mul_div_le _ _)
    have kept : ctx.buflen - 64 * (ctx.buflen / 64) = ctx.buflen % 64 := by omega
    rw [kept, Nat.mul_comm] at flushed
    exact flushed
  · exact holds

theorem flush_few (ctx : Md5Ctx) : (flush ctx).buflen ≤ 64 := by
  rw [flush]
  split
  · exact Nat.le_of_lt (Nat.mod_lt _ (by decide))
  · omega

theorem flush_full {ctx : Md5Ctx} (full : ctx.buflen = 128) : (flush ctx).buflen = 0 := by
  rw [flush, if_pos (by omega)]
  dsimp only
  rw [full]

theorem fillBuffer_takes {m : Str} {ctx : Md5Ctx} (holds : Holds ctx m) (few : ctx.buflen ≤ 64) {data : Str}
    (aligned : 4 ∣ ctx.buflen ∨ data.length ≤ 64) :
    TakenUp m data (fillBuffer data ctx) ∧
      ((fillBuffer data ctx).2.buflen = 0 ∨ (fillBuffer data ctx).1.length ≤ 64) := by
  rw [fillBuffer]
  split
  · have bound := fullWords_le ctx.buflen data.length
    generalize chosen : fullWords ctx.buflen data.length = add at bound
    have size : (data.take add).length = add := List.length_take_of_le bound.1
    have stored := holds_store holds (data.take add) (by omega)
    rw [size] at stored
    refine ⟨⟨⟨data.take add, List.take_append_drop _ _, holds_flushed stored⟩, flush_few _⟩, ?_⟩
    by_cases short : data.length < 128 - ctx.buflen
    · right
      rw [fullWords, if_pos short] at chosen
      rw [List.length_drop]
      omega
    · rw [fullWords, if_neg short] at chosen
      rcases aligned with aligned | small
      · left
        exact flush_full (by dsimp only at chosen ⊢; omega)
      · right
        rw [List.length_drop]
        omega
  · rename_i empty
    exact ⟨⟨⟨[], rfl, by rw [List.append_nil]; exact holds⟩, few⟩, .inl (not_ne_iff.mp empty)⟩

theorem holds_blocks {ctx : Md5Ctx} {m : Str} (holds : Holds ctx m) (empty : ctx.buflen = 0) (more : Nat) {bytes : Str}
    (enough : 64 * more ≤ bytes.length) (small : 64 * more < 4294967296) :
    Holds (md5ProcessBlock bytes (64 * more) ctx) (m ++ bytes.take (64 * more)) := by
  obtain ⟨blocks, front, done, rest⟩ := holds.split
  rw [empty, List.take_zero, List.append_nil] at rest
  rw [← rest]
  refine ⟨holds.room, holds.within, _, _, done_process done more enough small, ?_⟩
  change _ ++ ctx.buffer.take ctx.buflen = _
  rw [empty, List.take_zero, List.append_nil]

theorem wholeBlocks_takes {m : Str} {ctx : Md5Ctx} (holds : Holds ctx m) (few : ctx.buflen ≤ 64) {data : Str}
    (free : ctx.buflen = 0 ∨ data.length ≤ 64) (small : data.length < 4294967296) :
    TakenUp m data (wholeBlocks data ctx) ∧ (wholeBlocks data ctx).1.length ≤ 64 := by
  rw [wholeBlocks]
  split
  · rename_i large
    have empty : ctx.buflen = 0 := by omega
    rw [Nat.mul_comm]
    have taken := @holds_blocks _ _ holds empty (data.length / 64) data (Nat.mul_div_le _ _)
      (Nat.lt_of_le_of_lt (Nat.mul_div_le _ _) small)
    refine ⟨⟨⟨_, List.take_append_drop _ _, taken⟩, few⟩, ?_⟩
    rw [List.length_drop]
    omega
  · rename_i short
    exact ⟨⟨⟨[], rfl, by rw [List.append_nil]; exact holds⟩, few⟩, Nat.not_lt.mp short⟩

theorem keepRest_holds {m : Str} {ctx : Md5Ctx} (holds : Holds ctx m) (few : ctx.buflen ≤ 64) {data : Str}
    (short : data.length ≤ 64) : Holds (keepRest data ctx) (m ++ data) ∧ (keepRest data ctx).buflen ≤ 64 := by
  rw [keepRest]
  split
  · have stored := holds_store holds data (by omega)
    dsimp only
    split
    · rename_i full
      exact ⟨holds_flush stored 1 full, by dsimp only; omega⟩
    · exact ⟨stored, by dsimp only; omega⟩
  · rename_i none
    rw [List.length_eq_zero_iff.mp (Nat.eq_zero_of_not_pos none), List.append_nil]
    exact ⟨holds, few⟩

/-- A piece that comes at a word's start, or is not longer than a block, is added to the message. -/
theorem holds_process_bytes {m : Str} {ctx : Md5Ctx} (holds : Holds ctx m) (few : ctx.buflen ≤ 64) {data : Str}
    (aligned : 4 ∣ ctx.buflen ∨ data.length ≤ 64) (small : data.length < 4294967296) :
    Holds (md5ProcessBytes data ctx) (m ++ data) ∧ (md5ProcessBytes data ctx).buflen ≤ 64 := by
  obtain ⟨⟨⟨front, cut, filled⟩, few⟩, free⟩ := fillBuffer_takes holds few aligned
  have left : (fillBuffer data ctx).1.length ≤ data.length := by
    have size := congrArg List.length cut
    rw [List.length_append] at size
    omega
  obtain ⟨⟨⟨middle, cut', taken⟩, few⟩, short⟩ := wholeBlocks_takes filled few free (Nat.lt_of_le_of_lt left small)
  have kept := keepRest_holds taken few short
  rw [List.append_assoc, List.append_assoc, cut', cut] at kept
  exact kept

theorem octet_of_mod {a b : Nat} (same : a % 256 = b % 256) : UInt8.ofNat a = UInt8.ofNat b := by
  apply UInt8.toNat_inj.mp
  rw [UInt8.toNat_ofNat', UInt8.toNat_ofNat']
  exact same

theorem length_bits {ctx : Md5Ctx} {len : Nat} (counted : total ctx = len % 18446744073709551616) :
    bytesOf (ctx.total0 <<< 3) ++ bytesOf (ctx.total1 <<< 3 ||| ctx.total0 >>> 29) =
      (List.range 8).map fun i => UInt8.ofNat (8 * len / 256 ^ i) := by
  have t0 := ctx.total0.toNat_lt
  have low : (ctx.total0 <<< 3).toNat = 8 * ctx.total0.toNat % 4294967296 := by
    rw [UInt32.toNat_shiftLeft, Nat.shiftLeft_eq, Nat.mul_comm]
    rfl
  have shifted : (ctx.total1 <<< 3).toNat = 2 ^ 3 * (ctx.total1.toNat % 536870912) := by
    rw [UInt32.toNat_shiftLeft, Nat.shiftLeft_eq]
    change ctx.total1.toNat * 8 % 4294967296 = 8 * _
    omega
  have carried : (ctx.total0 >>> 29).toNat = ctx.total0.toNat / 536870912 := by
    rw [UInt32.toNat_shiftRight, Nat.shiftRight_eq_div_pow]
    rfl
  have high : (ctx.total1 <<< 3 ||| ctx.total0 >>> 29).toNat =
      8 * (ctx.total1.toNat % 536870912) + ctx.total0.toNat / 536870912 := by
    rw [UInt32.toNat_or, shifted, carried, ← Nat.two_pow_add_eq_or_of_lt (by omega)]
  rw [total] at counted
  rw [bytesOf, bytesOf, low, high]
  simp only [List.range_succ, List.range_zero, List.map_cons, List.map_nil, List.nil_append, List.cons_append,
    List.cons.injEq, and_true]
  refine ⟨?_, ?_, ?_, ?_, ?_, ?_, ?_, ?_⟩ <;> (apply octet_of_mod; omega)

theorem padOf_whole {bytes : Nat} (few : bytes ≤ 64) : ∃ j, bytes + padOf bytes + 8 = 64 * j ∧ j ≤ 2 := by
  rw [padOf]
  by_cases large : bytes ≥ 56
  · exact ⟨2, by rw [if_pos large]; omega, Nat.le_refl 2⟩
  · exact ⟨1, by rw [if_neg large]; omega, by decide⟩

theorem padding {bytes : Nat} (few : bytes ≤ 64) :
    fillbuf.take (padOf bytes) = 0x80 :: List.replicate ((119 - bytes % 64) % 64) 0 ∧
      (fillbuf.take (padOf bytes)).length = padOf bytes := by
  have some : padOf bytes = (119 - bytes % 64) % 64 + 1 := by rw [padOf]; split <;> omega
  have bound : (119 - bytes % 64) % 64 < 64 := Nat.mod_lt _ (by decide)
  rw [some]
  constructor
  · rw [fillbuf, List.take_succ_cons, List.take_replicate, Nat.min_eq_left (by omega)]
  · rw [List.length_take]
    exact Nat.min_eq_left bound

theorem memcpy_after {place : Nat} {buffer : Str} (fits : place ≤ buffer.length) (a b : Str) :
    memcpy (place + a.length) b (memcpy place a buffer) = memcpy place (a ++ b) buffer := by
  have front : (buffer.take place ++ a).length = place + a.length := by
    rw [List.length_append, List.length_take_of_le fits]
  have after : (memcpy place a buffer).drop (place + a.length + b.length) = buffer.drop (place + (a ++ b).length) := by
    rw [memcpy, ← front, List.drop_append, List.drop_eq_nil_of_le (Nat.le_add_right _ _), List.nil_append,
        Nat.add_sub_cancel_left,
      List.drop_drop, front, List.length_append, Nat.add_assoc]
  rw [memcpy, after, take_memcpy a fits, memcpy, List.append_assoc (buffer.take place)]

/-- What the prolog puts into the buffer is what the document adds to the message. -/
theorem take_prolog {bytes : Nat} (few : bytes ≤ 64) {ctx : Md5Ctx} (room : ctx.buffer.length = 128) {len : Nat}
    (counted : total ctx = len % 18446744073709551616) :
    (prolog bytes ctx).length = 128 ∧
      (prolog bytes ctx).take (bytes + padOf bytes + 8) = ctx.buffer.take bytes ++
        (0x80 :: List.replicate ((119 - bytes % 64) % 64) 0 ++ (List.range 8).map fun i => UInt8.ofNat (8 * len / 256 ^ i)) := by
  obtain ⟨filled, padLength⟩ := padding few
  obtain ⟨j, whole, most⟩ := padOf_whole few
  have place : bytes ≤ ctx.buffer.length := by omega
  -- the three pieces, one after the other
  have stored := memcpy_after place (fillbuf.take (padOf bytes)) (bytesOf (ctx.total0 <<< 3))
  have stored' := memcpy_after place (fillbuf.take (padOf bytes) ++ bytesOf (ctx.total0 <<< 3))
    (bytesOf (ctx.total1 <<< 3 ||| ctx.total0 >>> 29))
  rw [← stored, List.length_append, padLength, ← Nat.add_assoc, List.append_assoc, length_bits counted, filled] at stored'
  have pieces : (0x80 :: List.replicate ((119 - bytes % 64) % 64) 0 ++
      (List.range 8).map fun i => UInt8.ofNat (8 * len / 256 ^ i)).length = padOf bytes + 8 := by
    rw [← filled, List.length_append, padLength, List.length_map, List.length_range]
  have taken := take_memcpy (0x80 :: List.replicate ((119 - bytes % 64) % 64) 0 ++
    (List.range 8).map fun i => UInt8.ofNat (8 * len / 256 ^ i)) place
  rw [pieces, ← Nat.add_assoc] at taken
  have all : prolog bytes ctx = memcpy bytes (0x80 :: List.replicate ((119 - bytes % 64) % 64) 0 ++
      (List.range 8).map fun i => UInt8.ofNat (8 * len / 256 ^ i)) ctx.buffer := by
    rw [← stored', ← filled]
    rfl
  rw [all, ← room]
  exact ⟨length_memcpy (by rw [pieces]; omega), taken⟩

theorem finish_digests {m : Str} {ctx : Md5Ctx} (holds : Holds ctx m) (few : ctx.buflen ≤ 64) :
    md5FinishCtx ctx = digest m := by
  obtain ⟨blocks, front, done, rest⟩ := holds.split
  have room := holds.room
  have size : m.length = 64 * blocks + ctx.buflen := by
    rw [← rest, List.length_append, done.whole, List.length_take, room]
    omega
  have counted : total (count ctx ctx.buflen) = m.length % 18446744073709551616 := by
    rw [total_count ctx (by omega), done.counted, Nat.mod_add_mod, done.whole, size]
  obtain ⟨length, last⟩ := @take_prolog _ few (count ctx ctx.buflen) room _ counted
  obtain ⟨j, whole, most⟩ := padOf_whole few
  have message : front ++ (prolog ctx.buflen (count ctx ctx.buflen)).take (64 * j) = padded m := by
    rw [← whole, last, ← List.append_assoc]
    change front ++ ctx.buffer.take ctx.buflen ++ _ = _
    rw [rest, padded, size, Nat.mul_add_mod, List.append_assoc]
  have end_ := @registers_process (count ctx ctx.buflen) _ _ done.whole done.registers j
    (prolog ctx.buflen (count ctx ctx.buflen)) (by omega)
  have blocksLength : (padded m).length / 64 = blocks + j := by
    rw [← message, List.length_append, done.whole, List.length_take_of_le (by omega), ← Nat.mul_add]
    exact Nat.mul_div_cancel_left _ (by decide)
  rw [message] at end_
  have same : compressed = processed := by
    funext r block
    exact (processed_is r block).symm
  rw [digest, same, blocksLength, ← end_, ← whole]
  rfl

/-- Pieces of a message that come after so many bytes, each shorter than 2^32 bytes: each begins at a word, or is not longer
than a block. -/
def Aligned : Nat → List Str → Prop
  | _, [] => True
  | sofar, piece :: pieces =>
    (4 ∣ sofar ∨ piece.length ≤ 64) ∧ piece.length < 4294967296 ∧ Aligned (sofar + piece.length) pieces

theorem holds_pieces {pieces : List Str} {m : Str} {ctx : Md5Ctx} (holds : Holds ctx m) (few : ctx.buflen ≤ 64)
    (aligned : Aligned m.length pieces) :
    Holds (pieces.foldl (fun ctx piece => md5ProcessBytes piece ctx) ctx) (m ++ pieces.flatten) ∧
      (pieces.foldl (fun ctx piece => md5ProcessBytes piece ctx) ctx).buflen ≤ 64 := by
  induction pieces generalizing m ctx with
  | nil => exact ⟨by rw [List.flatten_nil, List.append_nil]; exact holds, few⟩
  | cons piece pieces ih =>
    obtain ⟨start, small, aligned⟩ := aligned
    have word : 4 ∣ ctx.buflen ∨ piece.length ≤ 64 := by
      obtain ⟨blocks, front, done, rest⟩ := holds.split
      have size := congrArg List.length rest
      rw [List.length_append, done.whole, List.length_take, holds.room] at size
      omega
    obtain ⟨taken, few⟩ := holds_process_bytes holds few word small
    rw [← List.length_append] at aligned
    rw [List.flatten_cons, ← List.append_assoc]
    exact ih taken few aligned

/-- A file's whole blocks are processed, whatever portions the reads give, and the rest is left in the buffer. -/
theorem readBlocks_holds {ctx : Md5Ctx} {m : Str} (holds : Holds ctx m) (empty : ctx.buflen = 0) (stream : List Str)
    (portions : ∀ portion ∈ stream, portion ≠ []) :
    ∃ front, front ++ (readBlocks ctx stream).2 = m ++ stream.flatten ∧ Holds (readBlocks ctx stream).1 front ∧
      (readBlocks ctx stream).1.buflen = 0 ∧ (readBlocks ctx stream).2.length < 4096 := by
  induction ctx, stream using readBlocks.induct generalizing m with
  | case1 ctx stream read going =>
    rename_i ih
    obtain ⟨same, full⟩ := readBlock_reads [] (by decide) stream
    obtain ⟨portions, -⟩ := readBlock_end portions [] (by decide)
    rw [if_neg going] at full
    have taken : Holds (md5ProcessBlock (readBlock [] stream).1 4096 ctx) (m ++ (readBlock [] stream).1.take 4096) :=
      holds_blocks holds empty 64 (Nat.le_of_eq full.symm) (by decide)
    rw [List.take_of_length_le (Nat.le_of_eq full)] at taken
    have still : (md5ProcessBlock (readBlock [] stream).1 4096 ctx).buflen = 0 := by
      rw [process_buflen]
      exact empty
    obtain ⟨front, whole, rest⟩ := ih taken still portions
    rw [readBlocks, if_pos going]
    refine ⟨front, ?_, rest⟩
    rw [whole, List.append_assoc, same]
    rfl
  | case2 ctx stream read =>
    rename_i ended_
    obtain ⟨same, short⟩ := readBlock_reads [] (by decide) stream
    obtain ⟨-, ended⟩ := readBlock_end portions [] (by decide)
    have nothing : (readBlock [] stream).2.1 = [] := not_ne_iff.mp ended_
    rw [if_pos nothing] at short
    rw [ended nothing, List.flatten_nil, List.append_nil, List.nil_append] at same
    rw [readBlocks, if_neg ended_]
    exact ⟨m, by rw [← same], holds, empty, short⟩

theorem holds_init {garbage : Str} (room : garbage.length = 128) : Holds (md5InitCtx garbage) [] :=
  ⟨room, Nat.zero_le _, 0, [], done_init garbage, rfl⟩

/-- The digest of a message that comes in pieces is the digest of the document, whatever the pieces are. -/
theorem pieces_digested {garbage : Str} (room : garbage.length = 128) {pieces : List Str} (aligned : Aligned 0 pieces) :
    md5FinishCtx (pieces.foldl (fun ctx piece => md5ProcessBytes piece ctx) (md5InitCtx garbage)) =
      digest pieces.flatten := by
  obtain ⟨holds, few⟩ := holds_pieces (holds_init room) (Nat.zero_le _) aligned
  exact finish_digests holds few

theorem three_pieces_digested :
    md5FinishCtx ([List.replicate 60 7, List.replicate 70 8, List.replicate 3 9].foldl
        (fun ctx piece => md5ProcessBytes piece ctx)
        (md5InitCtx (List.replicate 128 0))) =
      digest [List.replicate 60 7, List.replicate 70 8, List.replicate 3 9].flatten :=
  pieces_digested List.length_replicate ⟨.inl (by decide), by decide, .inl (by decide), by decide,
      .inr (by decide), by decide, trivial⟩

/-- The digest of a file is the one of its content, whatever portions the reads give. -/
theorem stream_digested {garbage : Str} (room : garbage.length = 128) {stream : List Str}
    (portions : ∀ portion ∈ stream, portion ≠ []) : md5Stream garbage stream false = some (digest stream.flatten) := by
  obtain ⟨front, same, holds, empty, short⟩ := readBlocks_holds (holds_init room) rfl stream portions
  rw [List.nil_append] at same
  rw [md5Stream, if_neg Bool.false_ne_true, ← same]
  apply congrArg some
  split
  · have word : 4 ∣ (readBlocks (md5InitCtx garbage) stream).1.buflen := by rw [empty]; exact Nat.dvd_zero 4
    obtain ⟨holds, few⟩ := @holds_process_bytes _ _ holds (by rw [empty]; decide)
        (readBlocks (md5InitCtx garbage) stream).2 (.inl word) (by omega)
    exact finish_digests holds few
  · rename_i nothing
    rw [List.length_eq_zero_iff.mp (Nat.eq_zero_of_not_pos nothing), List.append_nil]
    exact finish_digests holds (by rw [empty]; decide)

theorem two_reads_digested :
    md5Stream (List.replicate 128 0) [[ch 'a'], [ch 'b', ch 'c']] false = some (digest [[ch 'a'], [ch 'b', ch 'c']].flatten) :=
  stream_digested List.length_replicate (by decide)

theorem md5_is {garbage : Str} (room : garbage.length = 128) {text : Str} (small : text.length < 4294967296) :
    md5 garbage text = (digest text).flatMap octet := by
  obtain ⟨holds, few⟩ := holds_process_bytes (holds_init room) (Nat.zero_le _) (.inl (Nat.dvd_zero 4)) small
  rw [md5, md5Buffer, finish_digests holds few, List.nil_append]

example : md5 (List.replicate 128 0) (str "abc") = str "900150983CD24FB0D6963F7D28E17F72" := by decide +kernel

end GuardianMd5
