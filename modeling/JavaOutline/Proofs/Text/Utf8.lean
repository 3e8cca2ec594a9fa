import JavaOutline.Outline.File
import Mathlib.Data.Char
import Mathlib.Order.Bounds.Defs

/-!
# UTF-8, read strictly

A number is spelled in one to four bytes, which have room for so many bits (`Utf8.Spells`). A
character is written with as few bytes as possible (`Utf8.Writes`), and bytes are well-formed if they
are the characters of some text one after the other (`Utf8.WellFormed`).

Reading the first character succeeds exactly if the bytes begin with a written character
(`Utf8.decodeChar_eq_ok`), so at most one character can begin some bytes (`Utf8.prefix_unique`), and
reading on stops where none does (`Utf8.decodeFrom_eq_error`). What comes before is the longest part at
the beginning that is well-formed.
-/

namespace JavaOutline

namespace Utf8

/-! ## Written characters -/

/-- The bytes spell the number. A single byte has room for seven bits. Otherwise the first byte has a
mark that counts the bytes, each further byte has the mark `10` and room for six bits, and the first
byte has room for the bits in front of these. -/
inductive Spells (v : Nat) : List UInt8 → Prop where
  | one (h : v < 0x80) : Spells v [.ofNat v]
  | two (h : v < 0x800) : Spells v [.ofNat (v / 64 + 0xc0), .ofNat (v % 64 + 0x80)]
  | three (h : v < 0x10000) :
      Spells v [.ofNat (v / 4096 + 0xe0), .ofNat (v / 64 % 64 + 0x80), .ofNat (v % 64 + 0x80)]
  | four (h : v < 0x200000) :
      Spells v [.ofNat (v / 262144 + 0xf0), .ofNat (v / 4096 % 64 + 0x80),
        .ofNat (v / 64 % 64 + 0x80), .ofNat (v % 64 + 0x80)]

/-- The bytes spell the character, and no fewer bytes do. Surrogates and numbers above 10FFFF are no
characters. -/
structure Writes (c : Char) (bs : List UInt8) : Prop where
  spells : Spells c.toNat bs
  shortest : ∀ bs', Spells c.toNat bs' → bs.length ≤ bs'.length

/-- The bytes are characters, one after the other. -/
inductive WellFormed : List UInt8 → Prop where
  | nil : WellFormed []
  | cons {c : Char} {bs rest : List UInt8} (first : Writes c bs) (next : WellFormed rest) :
      WellFormed (bs ++ rest)

/-- The bytes of a text. -/
def encode (s : List Char) : List UInt8 := s.flatMap String.utf8EncodeChar

variable {b : UInt8} {bs rest : List UInt8} {c : Char} {v : Nat}

/-- How many bytes a number needs. -/
theorem Spells.le_length (h : Spells v bs) : 1 ≤ bs.length ∧ (0x80 ≤ v → 2 ≤ bs.length) ∧
    (0x800 ≤ v → 3 ≤ bs.length) ∧ (0x10000 ≤ v → 4 ≤ bs.length) := by
  cases h <;> simp only [List.length_cons, List.length_nil] <;> omega

/-- With so many bytes a number is spelled in one way. -/
theorem Spells.unique {bs' : List UInt8} (h : Spells v bs) (h' : Spells v bs')
    (hlength : bs.length = bs'.length) : bs = bs' := by
  cases h with
  | one =>
    cases h' with
    | one => rfl
    | two | three | four => simp at hlength
  | two =>
    cases h' with
    | two => rfl
    | one | three | four => simp at hlength
  | three =>
    cases h' with
    | three => rfl
    | one | two | four => simp at hlength
  | four =>
    cases h' with
    | four => rfl
    | one | two | three => simp at hlength

/-- The standard encoding of a character, by the number of its bytes. -/
theorem utf8EncodeChar_cases (c : Char) :
    c.toNat < 0x80 ∧ String.utf8EncodeChar c = [.ofNat c.toNat] ∨
    0x80 ≤ c.toNat ∧ c.toNat < 0x800 ∧ String.utf8EncodeChar c =
      [.ofNat (c.toNat / 64 + 0xc0), .ofNat (c.toNat % 64 + 0x80)] ∨
    0x800 ≤ c.toNat ∧ c.toNat < 0x10000 ∧ String.utf8EncodeChar c =
      [.ofNat (c.toNat / 4096 + 0xe0), .ofNat (c.toNat / 64 % 64 + 0x80),
        .ofNat (c.toNat % 64 + 0x80)] ∨
    0x10000 ≤ c.toNat ∧ c.toNat < 0x110000 ∧ String.utf8EncodeChar c =
      [.ofNat (c.toNat / 262144 + 0xf0), .ofNat (c.toNat / 4096 % 64 + 0x80),
        .ofNat (c.toNat / 64 % 64 + 0x80), .ofNat (c.toNat % 64 + 0x80)] := by
  have hvalid : c.toNat.isValidChar := c.valid
  have hval : c.val.toNat = c.toNat := rfl
  simp only [String.utf8EncodeChar, hval]
  split
  · exact .inl ⟨by omega, rfl⟩
  split
  · have hbits : c.toNat / 64 % 32 = c.toNat / 64 := Nat.mod_eq_of_lt (by omega)
    rw [hbits]
    exact .inr (.inl ⟨by omega, by omega, rfl⟩)
  split
  · have hbits : c.toNat / 4096 % 16 = c.toNat / 4096 := Nat.mod_eq_of_lt (by omega)
    rw [hbits]
    exact .inr (.inr (.inl ⟨by omega, by omega, rfl⟩))
  · have hbits : c.toNat / 262144 % 8 = c.toNat / 262144 := Nat.mod_eq_of_lt (by omega)
    rw [hbits]
    exact .inr (.inr (.inr ⟨by omega, by omega, rfl⟩))

theorem writes_utf8EncodeChar (c : Char) : Writes c (String.utf8EncodeChar c) := by
  rcases utf8EncodeChar_cases c with ⟨h, heq⟩ | ⟨h, h', heq⟩ | ⟨h, h', heq⟩ | ⟨h, h', heq⟩
  · exact heq ▸ ⟨.one h, fun _ hbs => hbs.le_length.1⟩
  · exact heq ▸ ⟨.two h', fun _ hbs => hbs.le_length.2.1 h⟩
  · exact heq ▸ ⟨.three h', fun _ hbs => hbs.le_length.2.2.1 h⟩
  · exact heq ▸ ⟨.four (by omega), fun _ hbs => hbs.le_length.2.2.2 h⟩

/-- A character is written in one way, the standard one. -/
theorem writes_iff : Writes c bs ↔ bs = String.utf8EncodeChar c := by
  have hc := writes_utf8EncodeChar c
  constructor
  · intro h
    have hle := h.shortest _ hc.spells
    have hge := hc.shortest _ h.spells
    exact h.spells.unique hc.spells (Nat.le_antisymm hle hge)
  · rintro rfl
    exact hc

theorem encode_cons (c : Char) (s : List Char) :
    encode (c :: s) = String.utf8EncodeChar c ++ encode s := List.flatMap_cons

/-- Well-formed are the bytes of texts, and no others. -/
theorem wellFormed_iff : WellFormed bs ↔ ∃ s, encode s = bs := by
  constructor
  · intro h
    induction h with
    | nil => exact ⟨[], rfl⟩
    | @cons c _ _ first _ ih =>
      obtain ⟨s, rfl⟩ := ih
      exact ⟨c :: s, by rw [encode_cons, writes_iff.1 first]⟩
  · rintro ⟨s, rfl⟩
    induction s with
    | nil => exact .nil
    | cons c s ih =>
      rw [encode_cons]
      exact .cons (writes_utf8EncodeChar c) ih

/-! ## The bits of a character -/

section
variable {b x y z lo hi : Nat}

/-- The byte begins a character with `n` further bytes, the first of them from `lo` to `hi`. -/
def Leads (b n lo hi : Nat) : Prop :=
  n = 0 ∧ b < 0x80 ∨
  n = 1 ∧ 0xc2 ≤ b ∧ b < 0xe0 ∧ lo = 0x80 ∧ hi = 0xbf ∨
  n = 2 ∧ 0xe0 ≤ b ∧ b < 0xf0 ∧ (b = 0xe0 ∧ lo = 0xa0 ∨ b ≠ 0xe0 ∧ lo = 0x80) ∧
    (b = 0xed ∧ hi = 0x9f ∨ b ≠ 0xed ∧ hi = 0xbf) ∨
  n = 3 ∧ 0xf0 ≤ b ∧ b < 0xf5 ∧ (b = 0xf0 ∧ lo = 0x90 ∨ b ≠ 0xf0 ∧ lo = 0x80) ∧
    (b = 0xf4 ∧ hi = 0x8f ∨ b ≠ 0xf4 ∧ hi = 0xbf)

instance {n : Nat} : Decidable (Leads b n lo hi) := inferInstanceAs (Decidable (_ ∨ _))

theorem two_bytes (hb : 0xc0 ≤ b ∧ b < 0xe0) (hx : 0x80 ≤ x ∧ x ≤ 0xbf) :
    b % 32 * 64 + x % 64 = v ↔ v / 64 + 0xc0 = b ∧ v % 64 + 0x80 = x := by
  omega

theorem three_bytes (hb : 0xe0 ≤ b ∧ b < 0xf0) (hx : 0x80 ≤ x ∧ x ≤ 0xbf)
    (hy : 0x80 ≤ y ∧ y ≤ 0xbf) : (b % 16 * 64 + x % 64) * 64 + y % 64 = v ↔
      v / 4096 + 0xe0 = b ∧ v / 64 % 64 + 0x80 = x ∧ v % 64 + 0x80 = y := by
  omega

theorem four_bytes (hb : 0xf0 ≤ b ∧ b < 0xf8) (hx : 0x80 ≤ x ∧ x ≤ 0xbf)
    (hy : 0x80 ≤ y ∧ y ≤ 0xbf) (hz : 0x80 ≤ z ∧ z ≤ 0xbf) :
    ((b % 8 * 64 + x % 64) * 64 + y % 64) * 64 + z % 64 = v ↔
      v / 262144 + 0xf0 = b ∧ v / 4096 % 64 + 0x80 = x ∧ v / 64 % 64 + 0x80 = y ∧
        v % 64 + 0x80 = z := by
  omega

theorem Leads.second_of_two (h : Leads b 1 lo hi) : lo ≤ x ∧ x ≤ hi ↔ 0x80 ≤ x ∧ x ≤ 0xbf := by
  unfold Leads at h
  omega

/-- Of three bytes the second one is in its range exactly if they spell a character that needs them
all. -/
theorem Leads.second_of_three (h : Leads b 2 lo hi) (hb : v / 4096 + 0xe0 = b)
    (hx : v / 64 % 64 + 0x80 = x) : lo ≤ x ∧ x ≤ hi ↔ 0x800 ≤ v ∧ v.isValidChar := by
  unfold Leads at h
  omega

/-- Of four bytes the second one is in its range exactly if they spell a character that needs them
all. -/
theorem Leads.second_of_four (h : Leads b 3 lo hi) (hb : v / 262144 + 0xf0 = b)
    (hx : v / 4096 % 64 + 0x80 = x) : lo ≤ x ∧ x ≤ hi ↔ 0x10000 ≤ v ∧ v.isValidChar := by
  unfold Leads at h
  omega

/-- The second byte has the mark of a further byte. -/
theorem Leads.second {n : Nat} (h : Leads b (n + 1) lo hi) (hx : lo ≤ x ∧ x ≤ hi) :
    0x80 ≤ x ∧ x ≤ 0xbf := by
  unfold Leads at h
  omega

end

/-! ## Reading a character -/

theorem forall_byte {P : UInt8 → Prop} (h : ∀ i < 256, P (.ofNat i)) (b : UInt8) : P b := by
  have hb := h b.toNat b.toNat_lt
  rwa [UInt8.ofNat_toNat] at hb

theorem leads_of_lead? {n : Nat} {lo hi : UInt8} (h : lead? b = some (n, lo, hi)) :
    Leads b.toNat n lo.toNat hi.toNat := by
  have hall : ∀ b : UInt8, ∀ x ∈ (lead? b).toList, Leads b.toNat x.1 x.2.1.toNat x.2.2.toNat :=
    forall_byte (by decide +kernel)
  exact hall b (n, lo, hi) (by simp [h])

theorem exists_lead? (h : b.toNat < 0x80 ∨ 0xc2 ≤ b.toNat ∧ b.toNat < 0xf5) :
    ∃ n lo hi, lead? b = some (n, lo, hi) ∧ Leads b.toNat n lo.toNat hi.toNat := by
  have hall : ∀ b : UInt8, b.toNat < 0x80 ∨ 0xc2 ≤ b.toNat ∧ b.toNat < 0xf5 →
      (lead? b).isSome = true := forall_byte (by decide +kernel)
  obtain ⟨⟨n, lo, hi⟩, hlead⟩ := Option.isSome_iff_exists.1 (hall b h)
  exact ⟨n, lo, hi, hlead, leads_of_lead? hlead⟩

theorem further_zero_eq_ok {lo hi : UInt8} {taken : List UInt8} {w : Nat} :
    further 0 lo hi v taken bs = .ok (w, rest) ↔ v = w ∧ bs = rest := by
  simp [further]

/-- A further byte is in its range, and then the others are read. -/
theorem further_succ_eq_ok {n : Nat} {lo hi : UInt8} {taken : List UInt8} {w : Nat} :
    further (n + 1) lo hi v taken bs = .ok (w, rest) ↔
      ∃ x bs', bs = x :: bs' ∧ (lo.toNat ≤ x.toNat ∧ x.toNat ≤ hi.toNat) ∧
        further n 0x80 0xbf (v * 64 + x.toNat % 64) (taken ++ [x]) bs' = .ok (w, rest) := by
  cases bs with
  | nil => simp [further]
  | cons x bs =>
    simp only [further, ← UInt8.le_iff_toNat_le, List.cons.injEq]
    constructor
    · intro h
      split at h
      · exact ⟨x, bs, ⟨rfl, rfl⟩, ‹_›, h⟩
      · cases h
    · rintro ⟨_, _, ⟨rfl, rfl⟩, hx, h⟩
      rw [if_pos hx]
      exact h

/-- A character is read from its first byte and the further bytes that this one announces. -/
theorem decodeChar_eq_ok_iff : decodeChar b bs = .ok (c, rest) ↔
    ∃ n lo hi v, lead? b = some (n, lo, hi) ∧
      further n lo hi (leadBits b n) [b] bs = .ok (v, rest) ∧ Char.ofNat v = c := by
  simp only [decodeChar]
  constructor
  · intro h
    split at h
    · cases h
    · rename_i n lo hi hlead
      split at h
      · rename_i v rest' hfurther
        cases h
        exact ⟨n, lo, hi, v, hlead, hfurther, rfl⟩
      · cases h
  · rintro ⟨n, lo, hi, v, hlead, hfurther, rfl⟩
    simp only [hlead, hfurther]

/-- Bytes that spell a number and are needed for it write its character. -/
theorem eq_utf8EncodeChar {bytes : List UInt8} (hvalid : v.isValidChar) (h : Spells v bytes)
    (hshortest : ∀ bs', Spells v bs' → bytes.length ≤ bs'.length) :
    bytes = String.utf8EncodeChar (Char.ofNat v) := by
  have htoNat : (Char.ofNat v).toNat = v := by
    unfold Char.ofNat
    rw [dif_pos hvalid]
    rfl
  exact writes_iff.1 ⟨htoNat.symm ▸ h, htoNat.symm ▸ hshortest⟩

/-- What is read has been written so. -/
theorem eq_append_of_decodeChar (h : decodeChar b bs = .ok (c, rest)) :
    b :: bs = String.utf8EncodeChar c ++ rest := by
  obtain ⟨n, lo, hi, v, hlead, hfurther, rfl⟩ := decodeChar_eq_ok_iff.1 h
  have hleads := leads_of_lead? hlead
  rcases id hleads with ⟨rfl, hb⟩ | ⟨rfl, hb, hb', -⟩ | ⟨rfl, hb, hb', -⟩ | ⟨rfl, hb, hb', -⟩
  · obtain ⟨rfl, rfl⟩ := further_zero_eq_ok.1 hfurther
    have hspells : Spells b.toNat [b] := by simpa using Spells.one hb
    exact congrArg (· ++ bs) (eq_utf8EncodeChar (.inl (Nat.lt_trans hb (by decide))) hspells
      fun _ h' => h'.le_length.1)
  · obtain ⟨x, _, rfl, hx, hfurther⟩ := further_succ_eq_ok.1 hfurther
    obtain ⟨hv, rfl⟩ := further_zero_eq_ok.1 hfurther
    obtain ⟨hvb, hvx⟩ := (two_bytes ⟨by omega, hb'⟩ (hleads.second hx)).1 hv
    have hspells := Spells.two (v := v) (by omega)
    rw [hvb, hvx, UInt8.ofNat_toNat, UInt8.ofNat_toNat] at hspells
    exact congrArg (· ++ _) (eq_utf8EncodeChar (.inl (by omega)) hspells
      fun _ h' => h'.le_length.2.1 (by omega))
  · obtain ⟨x, _, rfl, hx, hfurther⟩ := further_succ_eq_ok.1 hfurther
    obtain ⟨y, _, rfl, hy, hfurther⟩ := further_succ_eq_ok.1 hfurther
    obtain ⟨hv, rfl⟩ := further_zero_eq_ok.1 hfurther
    obtain ⟨hvb, hvx, hvy⟩ := (three_bytes ⟨hb, hb'⟩ (hleads.second hx) hy).1 hv
    obtain ⟨hmin, hvalid⟩ := (hleads.second_of_three hvb hvx).1 hx
    have hspells := Spells.three (v := v) (by omega)
    rw [hvb, hvx, hvy, UInt8.ofNat_toNat, UInt8.ofNat_toNat, UInt8.ofNat_toNat] at hspells
    exact congrArg (· ++ _) (eq_utf8EncodeChar hvalid hspells fun _ h' => h'.le_length.2.2.1 hmin)
  · obtain ⟨x, _, rfl, hx, hfurther⟩ := further_succ_eq_ok.1 hfurther
    obtain ⟨y, _, rfl, hy, hfurther⟩ := further_succ_eq_ok.1 hfurther
    obtain ⟨z, _, rfl, hz, hfurther⟩ := further_succ_eq_ok.1 hfurther
    obtain ⟨hv, rfl⟩ := further_zero_eq_ok.1 hfurther
    obtain ⟨hvb, hvx, hvy, hvz⟩ := (four_bytes ⟨hb, by omega⟩ (hleads.second hx) hy hz).1 hv
    obtain ⟨hmin, hvalid⟩ := (hleads.second_of_four hvb hvx).1 hx
    have hspells := Spells.four (v := v) (by omega)
    rw [hvb, hvx, hvy, hvz, UInt8.ofNat_toNat, UInt8.ofNat_toNat, UInt8.ofNat_toNat,
      UInt8.ofNat_toNat] at hspells
    exact congrArg (· ++ _) (eq_utf8EncodeChar hvalid hspells fun _ h' => h'.le_length.2.2.2 hmin)

theorem toNat_ofNat {n : Nat} (h : n < 256) : (UInt8.ofNat n).toNat = n :=
  UInt8.toNat_ofNat'.trans (Nat.mod_eq_of_lt h)

/-- A further byte, as it is written. -/
theorem toNat_further (v : Nat) : (UInt8.ofNat (v % 64 + 0x80)).toNat = v % 64 + 0x80 :=
  toNat_ofNat (by omega)

theorem further_mem_range (v : Nat) :
    0x80 ≤ (UInt8.ofNat (v % 64 + 0x80)).toNat ∧ (UInt8.ofNat (v % 64 + 0x80)).toNat ≤ 0xbf := by
  rw [toNat_further]
  omega

/-- What has been written is read so. -/
theorem decodeChar_of_eq_append (h : b :: bs = String.utf8EncodeChar c ++ rest) :
    decodeChar b bs = .ok (c, rest) := by
  refine decodeChar_eq_ok_iff.2 ?_
  have hcases := utf8EncodeChar_cases c
  have hvalid : c.toNat.isValidChar := c.valid
  have hchar : Char.ofNat c.toNat = c := Char.ofNat_toNat c
  generalize c.toNat = v at hcases hvalid hchar
  rcases hcases with ⟨hlt, heq⟩ | ⟨hge, hlt, heq⟩ | ⟨hge, hlt, heq⟩ | ⟨hge, hlt, heq⟩ <;>
    rw [heq] at h <;> obtain ⟨rfl, rfl⟩ := List.cons.inj h
  · have hb := toNat_ofNat (n := v) (by omega)
    obtain ⟨n, lo, hi, hlead, hleads⟩ := exists_lead? (b := .ofNat v) (by omega)
    obtain rfl : n = 0 := by
      unfold Leads at hleads
      omega
    exact ⟨0, lo, hi, v, hlead, further_zero_eq_ok.2 ⟨hb, rfl⟩, hchar⟩
  · have hb := toNat_ofNat (n := v / 64 + 0xc0) (by omega)
    have hx := toNat_further v
    obtain ⟨n, lo, hi, hlead, hleads⟩ := exists_lead? (b := .ofNat (v / 64 + 0xc0)) (by omega)
    obtain rfl : n = 1 := by
      unfold Leads at hleads
      omega
    have hrange := hleads.second_of_two.2 (further_mem_range v)
    have hvalue := (two_bytes (by omega) (further_mem_range v)).2 ⟨hb.symm, hx.symm⟩
    exact ⟨1, lo, hi, v, hlead, further_succ_eq_ok.2 ⟨_, _, rfl, hrange,
      further_zero_eq_ok.2 ⟨hvalue, rfl⟩⟩, hchar⟩
  · have hb := toNat_ofNat (n := v / 4096 + 0xe0) (by omega)
    have hx := toNat_further (v / 64)
    have hy := toNat_further v
    obtain ⟨n, lo, hi, hlead, hleads⟩ := exists_lead? (b := .ofNat (v / 4096 + 0xe0)) (by omega)
    obtain rfl : n = 2 := by
      unfold Leads at hleads
      omega
    have hrange := (hleads.second_of_three hb.symm hx.symm).2 ⟨hge, hvalid⟩
    have hvalue := (three_bytes (by omega) (further_mem_range (v / 64)) (further_mem_range v)).2
      ⟨hb.symm, hx.symm, hy.symm⟩
    exact ⟨2, lo, hi, v, hlead, further_succ_eq_ok.2 ⟨_, _, rfl, hrange,
      further_succ_eq_ok.2 ⟨_, _, rfl, further_mem_range v,
        further_zero_eq_ok.2 ⟨hvalue, rfl⟩⟩⟩, hchar⟩
  · have hb := toNat_ofNat (n := v / 262144 + 0xf0) (by omega)
    have hx := toNat_further (v / 4096)
    have hy := toNat_further (v / 64)
    have hz := toNat_further v
    obtain ⟨n, lo, hi, hlead, hleads⟩ := exists_lead? (b := .ofNat (v / 262144 + 0xf0)) (by omega)
    obtain rfl : n = 3 := by
      unfold Leads at hleads
      omega
    have hrange := (hleads.second_of_four hb.symm hx.symm).2 ⟨hge, hvalid⟩
    have hvalue := (four_bytes (by omega) (further_mem_range (v / 4096))
      (further_mem_range (v / 64)) (further_mem_range v)).2 ⟨hb.symm, hx.symm, hy.symm, hz.symm⟩
    exact ⟨3, lo, hi, v, hlead, further_succ_eq_ok.2 ⟨_, _, rfl, hrange,
      further_succ_eq_ok.2 ⟨_, _, rfl, further_mem_range (v / 64),
        further_succ_eq_ok.2 ⟨_, _, rfl, further_mem_range v,
          further_zero_eq_ok.2 ⟨hvalue, rfl⟩⟩⟩⟩, hchar⟩

/-- The first character is read exactly if the bytes begin with it. -/
theorem decodeChar_eq_ok :
    decodeChar b bs = .ok (c, rest) ↔ b :: bs = String.utf8EncodeChar c ++ rest :=
  ⟨eq_append_of_decodeChar, decodeChar_of_eq_append⟩

theorem utf8EncodeChar_ne_nil (c : Char) : String.utf8EncodeChar c ≠ [] :=
  List.length_pos_iff.1 (writes_utf8EncodeChar c).spells.le_length.1

/-- At most one character can begin some bytes. -/
theorem prefix_unique {c' : Char} {rest' : List UInt8}
    (h : String.utf8EncodeChar c ++ rest = String.utf8EncodeChar c' ++ rest') :
    c = c' ∧ rest = rest' := by
  obtain ⟨b, bs, hbs⟩ := List.exists_cons_of_ne_nil
    (List.append_ne_nil_of_left_ne_nil (utf8EncodeChar_ne_nil c) rest)
  have hc := decodeChar_eq_ok.2 hbs.symm
  have hc' := decodeChar_eq_ok.2 (hbs.symm.trans h)
  rw [hc] at hc'
  cases hc'
  exact ⟨rfl, rfl⟩

/-- A fault inside a character covers the bytes that were taken, and some of those behind them. -/
theorem further_eq_error {n : Nat} {lo hi : UInt8} {taken t : List UInt8} {r : Reason}
    (h : further n lo hi v taken bs = .error (t, r)) : taken <+: t ∧ t <+: taken ++ bs := by
  induction n generalizing lo hi v taken bs with
  | zero => cases h
  | succ n ih =>
    cases bs with
    | nil =>
      cases h
      exact ⟨List.prefix_rfl, List.prefix_append _ _⟩
    | cons x bs =>
      simp only [further] at h
      split at h
      · obtain ⟨htaken, ht⟩ := ih h
        rw [List.append_assoc] at ht
        exact ⟨(List.prefix_append _ _).trans htaken, ht⟩
      · cases h
        exact ⟨List.prefix_rfl, List.prefix_append _ _⟩

/-- A fault covers the first byte, and some of those behind it. -/
theorem decodeChar_eq_error {t : List UInt8} {r : Reason} (h : decodeChar b bs = .error (t, r)) :
    t ≠ [] ∧ t <+: b :: bs := by
  simp only [decodeChar] at h
  split at h
  · cases h
    exact ⟨List.cons_ne_nil _ _, List.prefix_append [b] bs⟩
  · split at h
    · cases h
    · rename_i e hfurther
      cases h
      obtain ⟨htaken, ht⟩ := further_eq_error hfurther
      refine ⟨?_, ht⟩
      rintro rfl
      exact List.cons_ne_nil _ _ (List.prefix_nil.1 htaken)

/-! ## Reading a text -/

/-- The bytes are a text and the rest, no character begins the rest, and the fault is there. The first
of the bytes is the one at the offset. -/
structure Fault.Behind (f : Fault) (offset : Nat) (bs : List UInt8) (s : List Char)
    (rest : List UInt8) : Prop where
  eq_append : bs = encode s ++ rest
  offset_eq : f.offset = offset + (encode s).length
  not_prefix : ∀ c, ¬ String.utf8EncodeChar c <+: rest
  bytes_ne_nil : f.bytes ≠ []
  bytes_prefix : f.bytes <+: rest

/-- Bytes are read to their end, or up to where no character begins. -/
theorem decodeFrom_cases {n : Nat} (offset : Nat) (hn : bs.length ≤ n) :
    (∃ s, decodeFrom n offset bs = .ok s ∧ encode s = bs) ∨
      ∃ f s rest, decodeFrom n offset bs = .error f ∧ f.Behind offset bs s rest := by
  induction n generalizing offset bs with
  | zero =>
    obtain rfl := List.length_eq_zero_iff.1 (Nat.le_zero.1 hn)
    exact .inl ⟨[], rfl, rfl⟩
  | succ n ih =>
    cases bs with
    | nil => exact .inl ⟨[], rfl, rfl⟩
    | cons b bs =>
      match hchar : decodeChar b bs with
      | .error (t, r) =>
        obtain ⟨hne, hprefix⟩ := decodeChar_eq_error hchar
        refine .inr ⟨⟨offset, t, r⟩, [], b :: bs, by simp only [decodeFrom, hchar],
          ⟨rfl, rfl, ?_, hne, hprefix⟩⟩
        rintro c ⟨rest, hrest⟩
        rw [decodeChar_eq_ok.2 hrest.symm] at hchar
        cases hchar
      | .ok (c, rest) =>
        have heq := decodeChar_eq_ok.1 hchar
        have hpos := List.length_pos_iff.2 (utf8EncodeChar_ne_nil c)
        have hlength := congrArg List.length heq
        rw [List.length_cons, List.length_append] at hlength
        have hoffset : bs.length + 1 - rest.length = (String.utf8EncodeChar c).length := by omega
        have hrest : rest.length ≤ n := by
          rw [List.length_cons] at hn
          omega
        rcases ih (offset + (String.utf8EncodeChar c).length) hrest with
          ⟨s, hs, hbs⟩ | ⟨f, s, rest', hf, hbehind⟩
        · exact .inl ⟨c :: s, by simp only [decodeFrom, hchar, hoffset, hs],
            by rw [encode_cons, hbs, heq]⟩
        · refine .inr ⟨f, c :: s, rest', by simp only [decodeFrom, hchar, hoffset, hf], ?_⟩
          refine { hbehind with eq_append := ?_, offset_eq := ?_ }
          · rw [heq, hbehind.eq_append, encode_cons, List.append_assoc]
          · rw [hbehind.offset_eq, encode_cons, List.length_append, Nat.add_assoc]

/-- If no character begins what comes behind a text, then no longer text begins the bytes. -/
theorem length_encode_le {s t : List Char} (hrest : ∀ c, ¬ String.utf8EncodeChar c <+: rest)
    (h : encode t <+: encode s ++ rest) : (encode t).length ≤ (encode s).length := by
  induction s generalizing t with
  | nil =>
    cases t with
    | nil => exact Nat.le_refl _
    | cons c t =>
      rw [encode_cons] at h
      exact absurd ((List.prefix_append _ _).trans h) (hrest c)
  | cons c s ih =>
    cases t with
    | nil => exact Nat.zero_le _
    | cons c' t =>
      obtain ⟨u, hu⟩ := h
      rw [encode_cons, encode_cons, List.append_assoc, List.append_assoc] at hu
      obtain ⟨rfl, htail⟩ := prefix_unique hu
      rw [encode_cons, encode_cons, List.length_append, List.length_append]
      exact Nat.add_le_add_left (ih ⟨u, htail⟩) _

/-- The text before a fault is the longest part at the beginning of the bytes that is well-formed. -/
theorem Fault.Behind.isGreatest {f : Fault} {s : List Char} (h : f.Behind 0 bs s rest) :
    IsGreatest {n | n ≤ bs.length ∧ WellFormed (bs.take n)} f.offset := by
  obtain ⟨rfl, hoffset, hrest, -, -⟩ := h
  rw [hoffset, Nat.zero_add]
  constructor
  · refine ⟨by rw [List.length_append]; exact Nat.le_add_right _ _, ?_⟩
    rw [List.take_left]
    exact wellFormed_iff.2 ⟨s, rfl⟩
  · rintro n ⟨hn, hformed⟩
    obtain ⟨t, ht⟩ := wellFormed_iff.1 hformed
    have hle := length_encode_le (s := s) hrest (ht.symm ▸ List.take_prefix n _)
    rwa [ht, List.length_take, Nat.min_eq_left hn] at hle

/-- Behind the text before a fault there are bytes that are no text. -/
theorem Fault.Behind.not_wellFormed {f : Fault} {s : List Char} (h : f.Behind 0 bs s rest) :
    ¬ WellFormed bs := by
  intro hformed
  obtain ⟨t, ht⟩ := wellFormed_iff.1 hformed
  have hprefix : encode t <+: encode s ++ rest :=
    ⟨[], (List.append_nil _).trans (ht.trans h.eq_append)⟩
  have hle := length_encode_le h.not_prefix hprefix
  rw [ht, h.eq_append, List.length_append] at hle
  obtain rfl : rest = [] := List.length_eq_zero_iff.1 (by omega)
  exact h.bytes_ne_nil (List.prefix_nil.1 h.bytes_prefix)

/-- A byte order mark at the beginning is kept as a character. -/
theorem exists_byteOrderMark {s : List Char} (h : encode s = 0xef :: 0xbb :: 0xbf :: rest) :
    ∃ tail, s = '\uFEFF' :: tail ∧ encode tail = rest := by
  have hmark : (0xef :: 0xbb :: 0xbf :: rest) = String.utf8EncodeChar '\uFEFF' ++ rest := rfl
  rw [hmark] at h
  cases s with
  | nil => exact absurd h.symm (List.append_ne_nil_of_left_ne_nil (utf8EncodeChar_ne_nil _) rest)
  | cons c tail =>
    rw [encode_cons] at h
    obtain ⟨rfl, htail⟩ := prefix_unique h
    exact ⟨tail, rfl, htail⟩

end Utf8

/-! ## Outlines of bytes -/

/-- What becomes of a file whose text has been outlined. -/
def FileOutline.ofOutline : Outline × Option Question → FileOutline
  | (o, none) => ⟨.ok o.text, o.packages⟩
  | (o, some question) => ⟨.error (.missingChild question), o.packages⟩

theorem FileOutline.ofOutline_result_ne (o : Outline × Option Question) (fault : Utf8.Fault) :
    (FileOutline.ofOutline o).result ≠ .error (.notText fault) := by
  obtain ⟨o, _ | question⟩ := o <;> rintro ⟨⟩

section
variable {methodsOnly : Bool} {packages : List (List Char)} {name : List Char} {bytes : List UInt8}

theorem outlineFile_of_decode_eq_ok {source : List Char} (h : Utf8.decode bytes = .ok source) :
    outlineFile methodsOnly packages name (some bytes) =
      .ofOutline (outlineSource methodsOnly packages source) := by
  simp only [outlineFile, h]
  obtain ⟨o, _ | question⟩ := outlineSource methodsOnly packages source <;> rfl

theorem outlineFile_of_decode_eq_error {fault : Utf8.Fault} (h : Utf8.decode bytes = .error fault) :
    outlineFile methodsOnly packages name (some bytes) = ⟨.error (.notText fault), packages⟩ := by
  simp only [outlineFile, h]

end

/-- The bytes of a file are read as text exactly if they are well-formed. Then the text that is outlined
has these bytes, and begins with a byte order mark if they do. Otherwise the outcome is a fault behind
the longest part at the beginning of the file that is well-formed. It covers some bytes of the file, at
least one, and no package has been announced. -/
theorem outlineFile_decodes (methodsOnly : Bool) (packages : List (List Char)) (name : List Char)
    (bytes : List UInt8) :
    let o := outlineFile methodsOnly packages name (some bytes)
    ((∀ fault, o.result ≠ .error (.notText fault)) ↔ Utf8.WellFormed bytes) ∧
    (Utf8.WellFormed bytes → ∃ source,
      o = .ofOutline (outlineSource methodsOnly packages source) ∧ Utf8.encode source = bytes ∧
      ∀ rest, bytes = 0xef :: 0xbb :: 0xbf :: rest →
        ∃ tail, source = '\uFEFF' :: tail ∧ Utf8.encode tail = rest) ∧
    (¬ Utf8.WellFormed bytes → ∃ fault,
      o = ⟨.error (.notText fault), packages⟩ ∧
      IsGreatest {n | n ≤ bytes.length ∧ Utf8.WellFormed (bytes.take n)} fault.offset ∧
      fault.bytes ≠ [] ∧ fault.bytes <+: bytes.drop fault.offset ∧
      fault.offset + fault.bytes.length ≤ bytes.length) := by
  intro o
  rcases Utf8.decodeFrom_cases 0 (Nat.le_refl bytes.length) with
    ⟨source, hdecode, hsource⟩ | ⟨fault, s, rest, hdecode, hbehind⟩
  · have hformed := Utf8.wellFormed_iff.2 ⟨source, hsource⟩
    have ho : o = .ofOutline _ := outlineFile_of_decode_eq_ok hdecode
    refine ⟨⟨fun _ => hformed, fun _ fault => ho ▸ FileOutline.ofOutline_result_ne _ fault⟩,
      fun _ => ⟨source, ho, hsource, ?_⟩, fun h => absurd hformed h⟩
    rintro rest hmark
    exact Utf8.exists_byteOrderMark (hsource.trans hmark)
  · have hformed := hbehind.not_wellFormed
    have ho : o = _ := outlineFile_of_decode_eq_error hdecode
    refine ⟨⟨fun h => absurd (ho ▸ rfl) (h fault), fun h => absurd h hformed⟩,
      fun h => absurd h hformed, fun _ => ⟨fault, ho, hbehind.isGreatest, hbehind.bytes_ne_nil, ?_⟩⟩
    rw [hbehind.offset_eq, Nat.zero_add, hbehind.eq_append, List.drop_left, List.length_append]
    exact ⟨hbehind.bytes_prefix, Nat.add_le_add_left hbehind.bytes_prefix.length_le _⟩

end JavaOutline
