import V6User.Tools.ParseNum

/-!
# Lines of a hexdump

`programs/dh/dh.c`: `hexline`.

A line has the low 32 bits of the address, a cell of three characters for each place of the
width, with a gap in the middle, and the bytes as text between two bars.  That makes
`14 + 4 * width` bytes (`length_hexline`), so that the 256 of the buffer are enough up to a
width of 60, while `main` accepts widths up to 64.  Without its blanks the part before the first
bar is the digits of the data, and the line can be read back (`decodeLine_hexline`).
-/

namespace V6User
namespace Tools

open Shell (Byte)
open Numeral

/-- `sizeof(line)`. -/
def lineSize : ℕ := 256

/-- `hex`. -/
def hex : List Byte := [48, 49, 50, 51, 52, 53, 54, 55, 56, 57, 97, 98, 99, 100, 101, 102]

def hexChar (n : ℕ) : Byte := hex.getD n 0

/-- The two digits of a byte. -/
def hexPair (b : Byte) : List Byte := [hexChar (b.toNat >>> 4), hexChar (b.toNat &&& 0xf)]

/-- The cell of a place, with the gap before the one in the middle. -/
def cell (data : List Byte) (width i : ℕ) : List Byte :=
  (if i = width >>> 1 then [32] else []) ++
    (match data[i]? with
    | some b => hexPair b
    | none => [32, 32]) ++ [32]

/-- A byte as text. -/
def ascii (b : Byte) : Byte := if 0x20 ≤ b ∧ b ≤ 0x7e then b else 46

/-- `hexline(addr, data, len, width)`: what it puts into `line`, byte after byte. -/
def hexline (addr : BitVec 64) (data : List Byte) (width : ℕ) : List Byte :=
  ([28, 24, 20, 16, 12, 8, 4, 0].map fun i => hexChar ((addr.toNat >>> i) &&& 0xf)) ++ [58, 32] ++
    (List.range width).flatMap (cell data width) ++ [124] ++
    data.map ascii ++ List.replicate (width - data.length) 32 ++ [124, 10]

/-- Two digits make a byte. -/
def readPairs : List Byte → List Byte
  | a :: b :: s => .ofNat (more 16 0 ([a, b].filterMap hexVal)) :: readPairs s
  | _ => []

/-- A line read back: the address from its eight digits, and the data from what stands before
the first bar, without the blanks. -/
def decodeLine (line : List Byte) : ℕ × List Byte :=
  (more 16 0 ((line.take 8).filterMap hexVal),
    readPairs (((line.drop 10).takeWhile (· ≠ 124)).filter (· ≠ 32)))

/-- The line has room in the buffer, and it says the address, modulo `2 ^ 32`, and the data. -/
def LineOk (addr : BitVec 64) (data : List Byte) (width : ℕ) : Prop :=
  (hexline addr data width).length ≤ lineSize ∧
    decodeLine (hexline addr data width) = (addr.toNat % 2 ^ 32, data)

/-! ### How long a line is -/

section Length

variable {data : List Byte} {width : ℕ}

theorem length_cell (data : List Byte) (width i : ℕ) :
    (cell data width i).length = if i = width >>> 1 then 4 else 3 := by
  rw [cell]
  cases data[i]? <;> split_ifs <;> rfl

/-- The places before the middle have three characters each, and the gap comes once. -/
theorem length_cells (n : ℕ) : ((List.range n).flatMap (cell data width)).length =
    3 * n + if width >>> 1 < n then 1 else 0 := by
  induction n with
  | zero => rfl
  | succ n ih =>
    rw [List.range_succ, List.flatMap_append, List.length_append, ih, List.flatMap_singleton,
      length_cell]
    split_ifs <;> omega

/-- **A line has `14 + 4 * width` bytes.** -/
theorem length_hexline (addr : BitVec 64) (hdata : data.length ≤ width) (hwidth : 1 ≤ width) :
    (hexline addr data width).length = 14 + 4 * width := by
  have hgap : width >>> 1 < width := by
    rw [Nat.shiftRight_eq_div_pow]
    omega
  simp only [hexline, List.length_append, List.length_map, List.length_cons, List.length_nil,
    List.length_replicate, length_cells, if_pos hgap]
  omega

end Length

/-! ### Reading a line back -/

section Decode

variable {data : List Byte} {width : ℕ}

theorem hexVal_hexChar {n : ℕ} (h : n < 16) : hexVal (hexChar n) = some n := by
  interval_cases n <;> decide

/-- A digit is neither a blank nor a bar. -/
theorem hexChar_ne {n : ℕ} (h : n < 16) : hexChar n ≠ 32 ∧ hexChar n ≠ 124 := by
  interval_cases n <;> decide

theorem halves (b : Byte) : b.toNat >>> 4 < 16 ∧ b.toNat &&& 0xf < 16 ∧
    (b.toNat >>> 4) * 16 + (b.toNat &&& 0xf) = b.toNat := by
  have hb := b.toNat_lt
  have hlow : b.toNat &&& 0xf = b.toNat % 16 := Nat.and_two_pow_sub_one_eq_mod b.toNat 4
  have hhigh : b.toNat >>> 4 = b.toNat / 16 := Nat.shiftRight_eq_div_pow b.toNat 4
  rw [hlow, hhigh]
  omega

/-- The digits of bytes are read as these. -/
theorem readPairs_hexPair (data : List Byte) : readPairs (data.flatMap hexPair) = data := by
  induction data with
  | nil => rfl
  | cons b data ih =>
    obtain ⟨hhigh, hlow, hb⟩ := halves b
    rw [List.flatMap_cons, hexPair, List.cons_append, List.cons_append, List.nil_append,
      readPairs, ih, List.filterMap_cons_some (hexVal_hexChar hhigh),
      List.filterMap_cons_some (hexVal_hexChar hlow), List.filterMap_nil, more_cons, more_cons,
      Nat.zero_mul, Nat.zero_add, hb]
    exact congrArg (· :: data) (UInt8.ofNat_toNat)

/-- Without its blanks a cell is the digits of its byte. -/
theorem filter_cell (i : ℕ) :
    (cell data width i).filter (· ≠ 32) = (data[i]?.map hexPair).getD [] := by
  have hgap : (if i = width >>> 1 then [32] else [] : List Byte).filter (· ≠ 32) = [] := by
    split_ifs <;> rfl
  rw [cell, List.filter_append, List.filter_append, hgap, List.nil_append]
  cases data[i]? with
  | none => rfl
  | some b =>
    obtain ⟨hhigh, hlow, -⟩ := halves b
    simp [hexPair, (hexChar_ne hhigh).1, (hexChar_ne hlow).1]

/-- The places beyond the data give nothing. -/
theorem flatMap_range (f : Byte → List Byte) {data : List Byte} {width : ℕ}
    (hdata : data.length ≤ width) :
    (List.range width).flatMap (fun i => (data[i]?.map f).getD []) = data.flatMap f := by
  induction data generalizing width with
  | nil =>
    rw [List.flatMap_nil, List.flatMap_eq_nil_iff]
    intro i _
    rfl
  | cons b data ih =>
    obtain ⟨width, rfl⟩ := Nat.exists_eq_add_of_lt (Nat.lt_of_lt_of_le (Nat.zero_lt_succ _) hdata)
    rw [List.length_cons] at hdata
    rw [Nat.zero_add, List.range_succ_eq_map, List.flatMap_cons, List.flatMap_map,
      List.flatMap_cons, ← @ih width (by omega)]
    rfl

/-- **Without their blanks the cells are the digits of the data.** -/
theorem filter_cells (hdata : data.length ≤ width) :
    ((List.range width).flatMap (cell data width)).filter (· ≠ 32) = data.flatMap hexPair := by
  rw [List.filter_flatMap]
  simp only [filter_cell]
  exact flatMap_range hexPair hdata

theorem notMem_cells : ∀ c ∈ (List.range width).flatMap (cell data width), c ≠ 124 := by
  intro c hc
  obtain ⟨i, -, hc⟩ := List.mem_flatMap.1 hc
  rw [cell] at hc
  cases hget : data[i]? with
  | none =>
    rw [hget] at hc
    split_ifs at hc <;> simp_all
  | some b =>
    obtain ⟨hhigh, hlow, -⟩ := halves b
    have h₁ := (hexChar_ne hhigh).2
    have h₂ := (hexChar_ne hlow).2
    rw [hget] at hc
    split_ifs at hc <;> simp only [hexPair] at hc <;> simp at hc <;> grind

/-- The eight digits of an address are its low 32 bits. -/
theorem more_address (n : ℕ) :
    more 16 0 (([28, 24, 20, 16, 12, 8, 4, 0].map fun i => hexChar ((n >>> i) &&& 0xf)).filterMap
      hexVal) = n % 2 ^ 32 := by
  have hnibble : ∀ j, (n >>> (4 * j)) &&& 0xf = n / 16 ^ j % 16 := by
    intro j
    rw [Nat.shiftRight_eq_div_pow, pow_mul]
    exact Nat.and_two_pow_sub_one_eq_mod _ 4
  have hval : (fun j => hexVal (hexChar ((n >>> (4 * j)) &&& 0xf))) =
      fun j => some (n / 16 ^ j % 16) := by
    funext j
    rw [hnibble, hexVal_hexChar (Nat.mod_lt _ (by decide))]
  have hplaces : [28, 24, 20, 16, 12, 8, 4, 0] = (List.range 8).reverse.map (4 * ·) := rfl
  rw [hplaces, List.map_map, List.filterMap_map]
  show more 16 0 ((List.range 8).reverse.filterMap
    fun j => hexVal (hexChar ((n >>> (4 * j)) &&& 0xf))) = _
  rw [hval, List.filterMap_eq_map', more_range]
  norm_num

/-- **A line says its address and its data**, in every width. -/
theorem decodeLine_hexline (addr : BitVec 64) (hdata : data.length ≤ width) :
    decodeLine (hexline addr data width) = (addr.toNat % 2 ^ 32, data) := by
  have htext : ∃ address rest, hexline addr data width =
      address ++ ([58, 32] ++ ((List.range width).flatMap (cell data width) ++ 124 :: rest)) ∧
        address.length = 8 ∧ more 16 0 (address.filterMap hexVal) = addr.toNat % 2 ^ 32 := by
    refine ⟨_, data.map ascii ++ List.replicate (width - data.length) 32 ++ [124, 10], ?_, ?_,
      more_address addr.toNat⟩
    · simp only [hexline, List.append_assoc, List.cons_append, List.nil_append]
    · rfl
  obtain ⟨address, rest, htext, hlen, haddress⟩ := htext
  have htake : (hexline addr data width).take 8 = address := by
    rw [htext, List.take_left' hlen]
  have hdrop : (hexline addr data width).drop 10 =
      (List.range width).flatMap (cell data width) ++ 124 :: rest := by
    rw [htext, ← List.append_assoc, List.drop_left' (by rw [List.length_append, hlen]; rfl)]
  have hcells : ((hexline addr data width).drop 10).takeWhile (· ≠ 124) =
      (List.range width).flatMap (cell data width) := by
    rw [hdrop, List.takeWhile_append_of_pos fun c hc => decide_eq_true (notMem_cells c hc)]
    simp
  rw [decodeLine, htake, hcells, filter_cells hdata, readPairs_hexPair, haddress]

end Decode

/-- **When a line is right.**  For every address, width and data of at most as many bytes: the
line has room in the buffer and can be read back exactly up to a width of 60.  It can be read
back in every width; what is wrong beyond 60 is its length. -/
theorem hexline_ok_iff (addr : BitVec 64) (data : List Byte) (width : ℕ)
    (hdata : 1 ≤ data.length ∧ data.length ≤ width) : LineOk addr data width ↔ width ≤ 60 := by
  rw [LineOk, length_hexline addr hdata.2 (hdata.1.trans hdata.2), lineSize]
  constructor
  · rintro ⟨hlen, -⟩
    omega
  · intro hwidth
    exact ⟨by omega, decodeLine_hexline addr hdata.2⟩

theorem hexline_ok_partial : LineOk 0x1234567890 [65, 0, 255] 16 :=
  (hexline_ok_iff 0x1234567890 [65, 0, 255] 16 (by decide)).2 (by decide)

/-- **A line of 64 places does not fit**, and `main` accepts `-w 64`. -/
theorem hexline_overflows :
    (hexline 0 [65] 64).length = 270 ∧ ¬LineOk 0 [65] 64 := by
  have hlen : (hexline 0 [65] 64).length = 270 := length_hexline 0 (by decide) (by decide)
  refine ⟨hlen, ?_⟩
  rintro ⟨hfits, -⟩
  rw [hlen, lineSize] at hfits
  exact absurd hfits (by decide)

end Tools
end V6User
