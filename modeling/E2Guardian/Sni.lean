import E2Guardian.Strings
import Mathlib.Algebra.Ring.Nat

/- The server name in a TLS ClientHello. The array comes from the network, so every read is checked: a read
   outside it gives no result at all. -/
namespace GuardianSni
open GuardianString

def word (high low : UInt8) : UInt16 := (high.toUInt16 <<< 8) ||| low.toUInt16

def readWord (bytes : Str) (curr : Nat) : Option Nat := do
  let high ← bytes[curr]?
  let low ← bytes[curr + 1]?
  return (word high low).toNat

def readName (bytes : Str) (curr namelen : Nat) : Option Str :=
  if curr + namelen ≤ bytes.length then some ((bytes.drop curr).take namelen) else none

def serverName (bytes : Str) (curr ext_len : Nat) : Option (Option Str) :=
  if 5 ≤ ext_len then do
    let kind ← bytes[curr + 2]?
    if kind = 0 then
      let namelen ← readWord bytes (curr + 3)
      if 5 + namelen ≤ ext_len ∧ 0 < namelen ∧ namelen < 1024 then
        let tls_sni_storage ← readName bytes (curr + 5) namelen
        return some tls_sni_storage
      else return none
    else return none
  else some none

def walk (bytes : Str) (maxchar curr : Nat) : Option (Option Str) :=
  if curr + 4 ≤ maxchar then
    match readWord bytes curr, readWord bytes (curr + 2) with
    | some ext_type, some ext_len =>
      if maxchar < curr + 4 + ext_len then some none
      else if ext_type = 0 then serverName bytes (curr + 4) ext_len
      else walk bytes maxchar (curr + 4 + ext_len)
    | _, _ => none
  else some none
termination_by maxchar - curr

def findName (bytes : Str) (len : Int) : Option (Option Str) :=
  if len < 44 then some none
  else do
    let ebytes := len.toNat
    let sidlen ← bytes[43]?
    let curr := 44 + sidlen.toNat
    if ebytes < curr + 2 then return none
    let cslen ← readWord bytes curr
    let curr := curr + 2 + cslen
    if ebytes < curr + 1 then return none
    let cmplen ← bytes[curr]?
    let curr := curr + 1 + cmplen.toNat
    if ebytes < curr + 2 then return none
    let ext_total_len ← readWord bytes curr
    let curr := curr + 2
    walk bytes (min (curr + ext_total_len) ebytes) curr

def getTlsSni (bytes : Str) (len : Int) : Option (Option Str × Int) :=
  (findName bytes len).map fun
    | some name => (some name, name.length)
    | none => (none, len)

/- Every read is inside. -/

theorem word_toNat (high low : UInt8) : (word high low).toNat = 256 * high.toNat + low.toNat := by
  have h := high.toNat_lt
  have l := low.toNat_lt
  have joined : high.toNat <<< 8 ||| low.toNat = 256 * high.toNat + low.toNat := by
    rw [← Nat.shiftLeft_add_eq_or_of_lt (by omega), Nat.shiftLeft_eq]
    omega
  simp only [word, UInt16.toNat_or, UInt16.toNat_shiftLeft, UInt8.toNat_toUInt16]
  rw [show (8 : UInt16).toNat % 16 = 8 from rfl, Nat.mod_eq_of_lt (by rw [Nat.shiftLeft_eq]; omega), joined]

theorem readWord_inside (bytes : Str) (curr : Nat) (room : curr + 2 ≤ bytes.length) :
    ∃ n, readWord bytes curr = some n := by
  rw [readWord, List.getElem?_eq_getElem (by omega), List.getElem?_eq_getElem (by omega)]
  exact ⟨_, rfl⟩

theorem serverName_inside {bytes : Str} {curr ext_len : Nat} (room : curr + ext_len ≤ bytes.length) :
    (serverName bytes curr ext_len).isSome := by
  unfold serverName
  split
  · rename_i five
    obtain ⟨namelen, read⟩ := readWord_inside bytes (curr + 3) (by omega)
    rw [List.getElem?_eq_getElem (by omega), read]
    simp only [Option.bind_eq_bind, Option.bind_some]
    split
    · split
      · rename_i fits
        rw [readName, if_pos (by omega)]
        rfl
      · rfl
    · rfl
  · rfl

theorem walk_inside {bytes : Str} {maxchar : Nat} (room : maxchar ≤ bytes.length) (curr : Nat) :
    (walk bytes maxchar curr).isSome := by
  induction curr using walk.induct bytes maxchar with
  | case1 curr four ext_type ext_len readLen readType past =>
    rw [walk, if_pos four, readType, readLen]
    simp [past]
  | case2 curr four ext_len readLen inside readType =>
    rw [walk, if_pos four, readType, readLen]
    simp only [if_neg inside, if_pos]
    exact serverName_inside (by omega)
  | case3 curr four ext_type ext_len readLen readType inside other ih =>
    rw [walk, if_pos four, readType, readLen]
    simp only [if_neg inside, if_neg other]
    exact ih
  | case4 curr four unread =>
    obtain ⟨t, readType⟩ := readWord_inside bytes curr (by omega)
    obtain ⟨n, readLen⟩ := readWord_inside bytes (curr + 2) (by omega)
    exact (unread t n readType readLen).elim
  | case5 curr short =>
    rw [walk, if_neg short]
    rfl

theorem findName_inside {bytes : Str} {len : Int} (room : len ≤ bytes.length) : (findName bytes len).isSome := by
  unfold findName
  split
  · rfl
  · rename_i long
    rw [List.getElem?_eq_getElem (by omega)]
    simp only [Option.bind_eq_bind, Option.bind_some]
    split
    · rfl
    · rename_i suites
      obtain ⟨cslen, read⟩ := readWord_inside bytes _ (Nat.le_trans (Nat.le_of_not_lt suites) (by omega))
      rw [read, Option.bind_some]
      split
      · rfl
      · rename_i methods
        rw [List.getElem?_eq_getElem (by omega), Option.bind_some]
        split
        · rfl
        · rename_i extensions
          obtain ⟨total, readTotal⟩ := readWord_inside bytes _ (Nat.le_trans (Nat.le_of_not_lt extensions) (by omega))
          rw [readTotal, Option.bind_some]
          exact walk_inside (by omega) _

/- A ClientHello. -/

def wordBytes (n : Nat) : Str := [UInt8.ofNat (n / 256), UInt8.ofNat n]

structure Extension where
  type : UInt16
  data : Str
  fits : data.length < 65536

def Extension.bytes (e : Extension) : Str := wordBytes e.type.toNat ++ (wordBytes e.data.length ++ e.data)

/-- The data of a `server_name` extension with a `host_name` in front, and further entries. -/
def hostNameFirst (name more : Str) : Str :=
  wordBytes (name.length + 3 + more.length) ++ (0 :: (wordBytes name.length ++ (name ++ more)))

/-- A message without extensions ends behind the compression list. -/
def extensionBytes : Option (List Extension) → Str
  | none => []
  | some extensions =>
    let all := extensions.flatMap Extension.bytes
    wordBytes all.length ++ all

def helloBody (session_id cipher_suites compression : Str) (extensions : Option (List Extension)) : Str :=
  UInt8.ofNat session_id.length :: (session_id ++ (wordBytes cipher_suites.length ++ (cipher_suites ++
    (UInt8.ofNat compression.length :: (compression ++ extensionBytes extensions)))))

structure ClientHello where
  recordVersion : UInt16
  version : UInt16
  random : Str
  session_id : Str
  cipher_suites : Str
  compression : Str
  extensions : Option (List Extension)
  random_length : random.length = 32
  session_fits : session_id.length < 256
  ciphers_fit : cipher_suites.length < 65536
  compression_fits : compression.length < 256
  record_fits : (helloBody session_id cipher_suites compression extensions).length + 38 < 65536
  once : ((extensions.getD []).map Extension.type).Nodup

namespace ClientHello

def body (h : ClientHello) : Str := helloBody h.session_id h.cipher_suites h.compression h.extensions

/-- The headers of the record and of the handshake message, the version and the random bytes. -/
def front (h : ClientHello) : Str :=
  22 :: (wordBytes h.recordVersion.toNat ++ (wordBytes (h.body.length + 38) ++
    (1 :: 0 :: (wordBytes (h.body.length + 34) ++ (wordBytes h.version.toNat ++ h.random)))))

def bytes (h : ClientHello) : Str := h.front ++ h.body

end ClientHello

/- Reading a ClientHello back. -/

theorem wordBytes_length (n : Nat) : (wordBytes n).length = 2 := rfl

theorem readWord_at (front rest : Str) {n : Nat} (fits : n < 65536) :
    readWord (front ++ (wordBytes n ++ rest)) front.length = some n := by
  have high : (front ++ (wordBytes n ++ rest))[front.length]? = some (UInt8.ofNat (n / 256)) := by
    rw [List.getElem?_append_right (Nat.le_refl _), Nat.sub_self]
    rfl
  have low : (front ++ (wordBytes n ++ rest))[front.length + 1]? = some (UInt8.ofNat n) := by
    rw [List.getElem?_append_right (Nat.le_add_right _ _), Nat.add_sub_cancel_left]
    rfl
  rw [readWord, high, low]
  show some (word (UInt8.ofNat (n / 256)) (UInt8.ofNat n)).toNat = some n
  rw [word_toNat, UInt8.toNat_ofNat', UInt8.toNat_ofNat']
  congr 1
  omega

theorem byte_at (front : Str) (b : UInt8) (rest : Str) : (front ++ b :: rest)[front.length]? = some b := by
  rw [List.getElem?_append_right (Nat.le_refl _), Nat.sub_self]
  rfl

theorem readName_at (front name rest : Str) :
    readName (front ++ (name ++ rest)) front.length name.length = some name := by
  rw [readName, if_pos (by simp), List.drop_left, List.take_left]

theorem type_fits (e : Extension) : e.type.toNat < 65536 := e.type.toNat_lt

theorem extension_length (e : Extension) : e.bytes.length = e.data.length + 4 := by
  rw [Extension.bytes, List.length_append, List.length_append, wordBytes_length, wordBytes_length]
  omega

theorem walk_at (front : Str) (e : Extension) (rest : Str) (maxchar : Nat)
    (inside : front.length + e.bytes.length ≤ maxchar) :
    walk (front ++ (e.bytes ++ rest)) maxchar front.length =
      if e.type = 0 then serverName (front ++ (e.bytes ++ rest)) (front.length + 4) e.data.length
      else walk (front ++ (e.bytes ++ rest)) maxchar (front ++ e.bytes).length := by
  have size := extension_length e
  have readType : readWord (front ++ (e.bytes ++ rest)) front.length = some e.type.toNat := by
    rw [Extension.bytes, List.append_assoc]
    exact readWord_at front _ (type_fits e)
  have readLen : readWord (front ++ (e.bytes ++ rest)) (front.length + 2) = some e.data.length := by
    have whole : front ++ (e.bytes ++ rest) =
        (front ++ wordBytes e.type.toNat) ++ (wordBytes e.data.length ++ (e.data ++ rest)) := by
      simp [Extension.bytes]
    rw [whole, show front.length + 2 = (front ++ wordBytes e.type.toNat).length by simp [wordBytes_length]]
    exact readWord_at _ _ e.fits
  rw [walk, if_pos (by omega), readType, readLen]
  simp only
  have zero : e.type.toNat = 0 ↔ e.type = 0 := UInt16.toNat_inj (b := 0)
  rw [if_neg (by omega), List.length_append, size, show front.length + (e.data.length + 4) =
    front.length + 4 + e.data.length by omega]
  by_cases sni : e.type = 0
  · rw [if_pos sni, if_pos (zero.mpr sni)]
  · rw [if_neg sni, if_neg (fun value => sni (zero.mp value))]

theorem walk_skips (extensions : List Extension) (others : ∀ e ∈ extensions, e.type ≠ 0) :
    ∀ (front rest : Str) (maxchar : Nat), (front ++ extensions.flatMap Extension.bytes).length ≤ maxchar →
      walk (front ++ (extensions.flatMap Extension.bytes ++ rest)) maxchar front.length =
        walk (front ++ (extensions.flatMap Extension.bytes ++ rest)) maxchar
          (front ++ extensions.flatMap Extension.bytes).length := by
  induction extensions with
  | nil =>
    intro front rest maxchar inside
    simp
  | cons e extensions ih =>
    intro front rest maxchar inside
    rw [List.flatMap_cons, List.append_assoc] at *
    rw [walk_at front e _ maxchar (by simp only [List.length_append] at inside ⊢; omega),
      if_neg (others e List.mem_cons_self), ← List.append_assoc front, ← List.append_assoc front]
    exact ih (fun x member => others x (List.mem_cons_of_mem _ member)) (front ++ e.bytes) rest maxchar
      (by simp only [List.length_append] at inside ⊢; omega)

theorem walk_end (bytes : Str) {maxchar curr : Nat} (done : maxchar ≤ curr) : walk bytes maxchar curr = some none := by
  rw [walk, if_neg (by omega)]

theorem serverName_at (front name more rest : Str) (some_ : name ≠ []) (short : name.length < 1024)
    (fits : (hostNameFirst name more).length < 65536) :
    serverName (front ++ (hostNameFirst name more ++ rest)) front.length (hostNameFirst name more).length =
      some (some name) := by
  have positive : 0 < name.length := List.length_pos_of_ne_nil some_
  have size : (hostNameFirst name more).length = name.length + more.length + 5 := by
    simp [hostNameFirst, wordBytes_length]
    omega
  let list := wordBytes (name.length + 3 + more.length)
  have kind : (front ++ (hostNameFirst name more ++ rest))[front.length + 2]? = some 0 := by
    have whole : front ++ (hostNameFirst name more ++ rest) =
        (front ++ list) ++ 0 :: (wordBytes name.length ++ (name ++ more) ++ rest) := by
      simp [hostNameFirst, list]
    rw [whole, show front.length + 2 = (front ++ list).length by simp [list, wordBytes_length]]
    exact byte_at _ _ _
  have namelen : readWord (front ++ (hostNameFirst name more ++ rest)) (front.length + 3) = some name.length := by
    have whole : front ++ (hostNameFirst name more ++ rest) =
        (front ++ list ++ [0]) ++ (wordBytes name.length ++ (name ++ (more ++ rest))) := by
      simp [hostNameFirst, list]
    rw [whole, show front.length + 3 = (front ++ list ++ [0]).length by simp [list, wordBytes_length]]
    exact readWord_at _ _ (by omega)
  have read : readName (front ++ (hostNameFirst name more ++ rest)) (front.length + 5) name.length = some name := by
    have whole : front ++ (hostNameFirst name more ++ rest) =
        (front ++ list ++ [0] ++ wordBytes name.length) ++ (name ++ (more ++ rest)) := by
      simp [hostNameFirst, list]
    rw [whole, show front.length + 5 = (front ++ list ++ [0] ++ wordBytes name.length).length by
      simp [list, wordBytes_length]]
    exact readName_at _ _ _
  rw [serverName, if_pos (by omega), kind, namelen]
  simp only [Option.bind_eq_bind, Option.bind_some, if_pos]
  rw [if_pos (by omega), read]
  rfl

theorem fields_passed (front session_id cipher_suites compression tail : Str) (size : front.length = 43)
    (sessionFits : session_id.length < 256) (ciphersFit : cipher_suites.length < 65536)
    (compressionFits : compression.length < 256) :
    let fields := front ++ UInt8.ofNat session_id.length :: session_id ++ wordBytes cipher_suites.length ++
      cipher_suites ++ UInt8.ofNat compression.length :: compression
    findName (fields ++ tail) (fields ++ tail).length =
      if tail.length < 2 then some none
      else (readWord (fields ++ tail) fields.length).bind fun total =>
        walk (fields ++ tail) (min (fields.length + 2 + total) (fields ++ tail).length) (fields.length + 2) := by
  intro fields
  let first := front ++ UInt8.ofNat session_id.length :: session_id
  let second := first ++ wordBytes cipher_suites.length ++ cipher_suites
  have firstLength : first.length = 44 + session_id.length := by simp [first, size]; omega
  have secondLength : second.length = first.length + 2 + cipher_suites.length := by simp [second, wordBytes_length]; omega
  have fieldsLength : fields.length = second.length + 1 + compression.length := by
    show (second ++ UInt8.ofNat compression.length :: compression).length = _
    simp
    omega
  have total : (fields ++ tail).length = fields.length + tail.length := List.length_append
  have sidlen : (fields ++ tail)[43]? = some (UInt8.ofNat session_id.length) := by
    have whole : fields ++ tail = front ++ UInt8.ofNat session_id.length :: (session_id ++ wordBytes cipher_suites.length ++
        cipher_suites ++ UInt8.ofNat compression.length :: compression ++ tail) := by
      simp [fields]
    rw [whole, ← size]
    exact byte_at _ _ _
  have cslen : readWord (fields ++ tail) first.length = some cipher_suites.length := by
    have whole : fields ++ tail = first ++ (wordBytes cipher_suites.length ++
        (cipher_suites ++ UInt8.ofNat compression.length :: compression ++ tail)) := by
      simp [fields, first]
    rw [whole]
    exact readWord_at _ _ ciphersFit
  have cmplen : (fields ++ tail)[second.length]? = some (UInt8.ofNat compression.length) := by
    have whole : fields ++ tail = second ++ UInt8.ofNat compression.length :: (compression ++ tail) := by
      simp [fields, second, first]
    rw [whole]
    exact byte_at _ _ _
  have sidValue : (UInt8.ofNat session_id.length).toNat = session_id.length := by
    rw [UInt8.toNat_ofNat']
    omega
  have cmpValue : (UInt8.ofNat compression.length).toNat = compression.length := by
    rw [UInt8.toNat_ofNat']
    omega
  unfold findName
  rw [if_neg (by omega), sidlen]
  simp only [Option.bind_eq_bind, Option.bind_some, Int.toNat_natCast, sidValue]
  rw [if_neg (by omega), ← firstLength, cslen, Option.bind_some, if_neg (by omega), ← secondLength, cmplen,
    Option.bind_some, cmpValue, ← fieldsLength, total]
  by_cases short : tail.length < 2
  · rw [if_pos short, if_pos (by omega)]
    rfl
  · rw [if_neg short, if_neg (by omega)]

namespace ClientHello
variable (h : ClientHello)

theorem front_length : h.front.length = 43 := by
  simp [front, wordBytes_length, h.random_length]

def fields : Str :=
  h.front ++ UInt8.ofNat h.session_id.length :: h.session_id ++ wordBytes h.cipher_suites.length ++
    h.cipher_suites ++ UInt8.ofNat h.compression.length :: h.compression

theorem bytes_eq : h.bytes = h.fields ++ extensionBytes h.extensions := by
  simp [bytes, body, helloBody, fields]

theorem findName_hello : findName h.bytes h.bytes.length = match h.extensions with
    | none => some none
    | some _ => walk h.bytes h.bytes.length (h.fields.length + 2) := by
  have passed : findName (h.fields ++ extensionBytes h.extensions) (h.fields ++ extensionBytes h.extensions).length =
      if (extensionBytes h.extensions).length < 2 then some none
      else (readWord (h.fields ++ extensionBytes h.extensions) h.fields.length).bind fun total =>
        walk (h.fields ++ extensionBytes h.extensions)
          (min (h.fields.length + 2 + total) (h.fields ++ extensionBytes h.extensions).length) (h.fields.length + 2) :=
    fields_passed h.front h.session_id h.cipher_suites h.compression (extensionBytes h.extensions)
      h.front_length h.session_fits h.ciphers_fit h.compression_fits
  rw [← bytes_eq] at passed
  rw [passed]
  cases list : h.extensions with
  | none => rfl
  | some extensions =>
    let all := extensions.flatMap Extension.bytes
    have fits := h.record_fits
    rw [list] at fits
    have small : (extensions.flatMap Extension.bytes).length < 65536 := by
      simp only [helloBody, extensionBytes, List.length_cons, List.length_append] at fits
      omega
    have tail : extensionBytes (some extensions) = wordBytes all.length ++ all := rfl
    have whole : h.bytes = h.fields ++ (wordBytes all.length ++ all) := by rw [bytes_eq, list, tail]
    have read : readWord h.bytes h.fields.length = some all.length := by
      rw [whole]
      exact readWord_at _ _ small
    have size : h.bytes.length = h.fields.length + 2 + all.length := by
      rw [whole]
      simp [wordBytes_length]
      omega
    have long : ¬(extensionBytes (some extensions)).length < 2 := by
      rw [tail, List.length_append, wordBytes_length]
      omega
    rw [if_neg long, read, Option.bind_some, ← size, Nat.min_self]

theorem around_extensions {extensions : List Extension} (list : h.extensions = some extensions) :
    h.bytes = (h.fields ++ wordBytes (extensions.flatMap Extension.bytes).length) ++ extensions.flatMap Extension.bytes := by
  rw [bytes_eq, list, List.append_assoc]
  rfl

theorem findName_other (none_ : ∀ e ∈ h.extensions.getD [], e.type ≠ 0) : findName h.bytes h.bytes.length = some none := by
  rw [findName_hello]
  cases list : h.extensions with
  | none => rfl
  | some extensions =>
    rw [list] at none_
    let front := h.fields ++ wordBytes (extensions.flatMap Extension.bytes).length
    have whole : h.bytes = front ++ (extensions.flatMap Extension.bytes ++ []) := by
      rw [List.append_nil]
      exact h.around_extensions list
    have skipped := walk_skips extensions none_ front [] h.bytes.length (by rw [whole]; simp)
    rw [← whole, show front.length = h.fields.length + 2 by simp [front, wordBytes_length]] at skipped
    simp only [skipped]
    exact walk_end _ (by rw [whole]; simp)

theorem findName_sni {e : Extension} (member : e ∈ h.extensions.getD []) (zero : e.type = 0) {name more : Str}
    (data : e.data = hostNameFirst name more) (some_ : name ≠ []) (short : name.length < 1024) :
    findName h.bytes h.bytes.length = some (some name) := by
  rw [findName_hello]
  cases list : h.extensions with
  | none => simp [list] at member
  | some extensions =>
    rw [list, Option.getD_some] at member
    obtain ⟨before_, after_, split_⟩ := List.append_of_mem member
    have others : ∀ x ∈ before_, x.type ≠ 0 := by
      intro x inside same
      have once := h.once
      rw [list, Option.getD_some, split_, List.map_append, List.map_cons] at once
      refine List.nodup_append.mp once |>.2.2 x.type (List.mem_map_of_mem inside) e.type List.mem_cons_self ?_
      rw [same, zero]
    let front := h.fields ++ wordBytes (extensions.flatMap Extension.bytes).length
    let rest := after_.flatMap Extension.bytes
    have whole : h.bytes = front ++ (before_.flatMap Extension.bytes ++ (e.bytes ++ rest)) := by
      rw [h.around_extensions list]
      simp [front, rest, split_]
    have size : h.bytes.length = front.length + (before_.flatMap Extension.bytes).length + e.bytes.length + rest.length := by
      rw [whole]
      simp only [List.length_append]
      omega
    have skipped := walk_skips before_ others front (e.bytes ++ rest) h.bytes.length
      (by rw [size, List.length_append]; omega)
    rw [← whole, show front.length = h.fields.length + 2 by simp [front, wordBytes_length]] at skipped
    let place := front ++ before_.flatMap Extension.bytes
    have here : h.bytes = place ++ (e.bytes ++ rest) := by rw [whole, ← List.append_assoc]
    have found := walk_at place e rest h.bytes.length (by rw [size, List.length_append]; omega)
    let inner := place ++ wordBytes e.type.toNat ++ wordBytes e.data.length
    have deep : place ++ (e.bytes ++ rest) = inner ++ (hostNameFirst name more ++ rest) := by
      simp [inner, Extension.bytes, data]
    rw [if_pos zero, deep, show place.length + 4 = inner.length by simp [inner, wordBytes_length], data,
      serverName_at inner name more rest some_ short (data ▸ e.fits), ← deep, ← here] at found
    simp only [skipped]
    exact found

end ClientHello

/-- No byte outside is read; a well-formed message gives the first host name, or `NULL` without the extension. -/
theorem server_name_found :
    (∀ (bytes : Str) (len : Int), len ≤ bytes.length → (getTlsSni bytes len).isSome) ∧
    (∀ (h : ClientHello) (e : Extension) (name more : Str), e ∈ h.extensions.getD [] → e.type = 0 →
      e.data = hostNameFirst name more → 1 ≤ name.length → name.length ≤ 1023 →
      getTlsSni h.bytes h.bytes.length = some (some name, (name.length : Int))) ∧
    (∀ h : ClientHello, (∀ e ∈ h.extensions.getD [], e.type ≠ 0) →
      getTlsSni h.bytes h.bytes.length = some (none, (h.bytes.length : Int))) := by
  refine ⟨?_, ?_, ?_⟩
  · intro bytes len room
    rw [getTlsSni, Option.isSome_map]
    exact findName_inside room
  · intro h e name more member zero data long short
    rw [getTlsSni, h.findName_sni member zero data (List.length_pos_iff.mp long) (by omega)]
    rfl
  · intro h others
    rw [getTlsSni, h.findName_other others]
    rfl

def exampleHello : ClientHello where
  recordVersion := 0x0301
  version := 0x0303
  random := List.replicate 32 7
  session_id := []
  cipher_suites := [0x13, 0x01]
  compression := [0]
  extensions := some [⟨16, [0, 3, 2, 104, 50], by decide⟩, ⟨0, hostNameFirst [101, 50, 103, 46, 111, 114, 103] [], by decide⟩]
  random_length := rfl
  session_fits := by decide
  ciphers_fit := by decide
  compression_fits := by decide
  record_fits := by decide
  once := by decide

theorem example_name_found : getTlsSni exampleHello.bytes exampleHello.bytes.length =
    some (some [101, 50, 103, 46, 111, 114, 103], 7) :=
  server_name_found.2.1 exampleHello _ [101, 50, 103, 46, 111, 114, 103] [] (List.mem_cons_of_mem _ List.mem_cons_self)
    rfl rfl (by decide) (by decide)

end GuardianSni
