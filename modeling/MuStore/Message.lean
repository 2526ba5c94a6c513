import MuStore.Library.UnorderedMap
import MuStore.Library.Ownership
import MuStore.Library.Words

namespace MuStore

abbrev Bytes := List UInt8

def ascii (s : String) : Bytes := s.toList.map fun c => c.toNat.toUInt8

def newline : UInt8 := 0x0a
def space : UInt8 := 0x20
def quote : UInt8 := 0x22

/-- A string built from `c_str()` ends before the first NUL. -/
def cStr (s : Bytes) : Bytes := s.takeWhile (· != 0)

theorem cStr_eq_self_iff {value : Bytes} : cStr value = value ↔ 0 ∉ value := by
  rw [cStr, List.takeWhile_eq_self_iff]
  constructor
  · intro h hz
    have hne := h 0 hz
    simp at hne
  · intro hz b hb
    rw [bne_iff_ne]
    rintro rfl
    exact hz hb

/-- `isspace` of the C locale: space, `\t`, `\n`, `\v`, `\f` and `\r`. -/
def isSpace (c : UInt8) : Bool := c == 0x20 || (0x09 ≤ c && c ≤ 0x0d)

def decimal (n : ℕ) : Bytes := (Nat.toDigits 10 n).map fun c => c.toNat.toUInt8

theorem digit_toNat {n : ℕ} {c : Char} (hc : c ∈ Nat.toDigits 10 n) :
    48 ≤ c.toNat ∧ c.toNat ≤ 57 := by
  have hd : c.isDigit = true := Nat.isDigit_of_mem_toDigits (by decide) (by decide) hc
  simp only [Char.isDigit, Bool.and_eq_true, decide_eq_true_eq] at hd
  exact hd

theorem digit_toUInt8 {n : ℕ} {c : Char} (hc : c ∈ Nat.toDigits 10 n) :
    c.toNat.toUInt8.toNat = c.toNat := by
  have h := (digit_toNat hc).2
  rw [Nat.toUInt8, UInt8.toNat_ofNat']
  omega

theorem isDigit_of_mem_decimal {n : ℕ} {b : UInt8} (hb : b ∈ decimal n) :
    0x30 ≤ b ∧ b ≤ 0x39 := by
  obtain ⟨c, hc, rfl⟩ := List.mem_map.mp hb
  rw [UInt8.le_iff_toNat_le, UInt8.le_iff_toNat_le, digit_toUInt8 hc]
  exact digit_toNat hc

theorem not_mem_decimal_of_isSpace {b : UInt8} (hb : isSpace b = true) (n : ℕ) :
    b ∉ decimal n := by
  intro hm
  obtain ⟨h1, h2⟩ := isDigit_of_mem_decimal hm
  simp only [isSpace, Bool.or_eq_true, Bool.and_eq_true, beq_iff_eq, decide_eq_true_eq] at hb
  rcases hb with rfl | ⟨-, h3⟩
  · exact absurd h1 (by decide)
  · exact absurd (UInt8.le_trans h1 h3) (by decide)

theorem decimal_injective : Function.Injective decimal := by
  intro m n h
  have hback : ∀ k, (decimal k).map (fun b => Char.ofNat b.toNat) = Nat.toDigits 10 k := by
    intro k
    rw [decimal, List.map_map]
    conv_rhs => rw [← List.map_id (Nat.toDigits 10 k)]
    apply List.map_congr_left
    intro c hc
    rw [Function.comp_apply, digit_toUInt8 hc, Char.ofNat_toNat, id]
  have hd := congrArg (fun l => Nat.ofDigitChars 10 (l.map fun b => Char.ofNat b.toNat) 0) h
  simpa only [hback, Nat.ofDigitChars_ten_toDigits] using hd

inductive RequestType where
  | setFields
  | getAll
  | getFields
  | invalid
  deriving DecidableEq, Repr

/-- `Request`. `fields` and `fieldNames` start empty, as the members do. -/
structure Request where
  type : RequestType
  key : Bytes
  fields : UnorderedMap Bytes Bytes
  fieldNames : List Bytes
  deriving DecidableEq

inductive ResponseType where
  | setFields
  | getAll
  | getFields
  | response
  deriving DecidableEq, Repr

/-- `Response`. Its fields are pointers into the store, not copies. -/
structure Response where
  type : ResponseType
  key : Bytes
  fields : UnorderedMap Bytes Addr
  fieldNames : List Bytes
  clientSocket : ℤ
  deriving DecidableEq

end MuStore
