import WgAndroid.Java.Text

/-!
# UTF-8

`String.getBytes(StandardCharsets.UTF_8)`.

Results:
1. `getBytes_append`: a text can be encoded in parts where the second part starts with no low surrogate.
2. `mem_getBytes`: a byte below `0x80` is a character of the text, or stands for a lone surrogate.
-/

namespace WgAndroid

abbrev Bytes := List UInt8

def isHighSurrogate (c : UInt16) : Bool := decide (0xD800 ≤ c) && decide (c < 0xDC00)

def isLowSurrogate (c : UInt16) : Bool := decide (0xDC00 ≤ c) && decide (c < 0xE000)

/-- The bytes of a code point. -/
def utf8Code (n : Nat) : Bytes :=
  if n < 0x80 then [UInt8.ofNat n]
  else if n < 0x800 then [UInt8.ofNat (0xC0 + n / 0x40), UInt8.ofNat (0x80 + n % 0x40)]
  else if n < 0x10000 then
    [UInt8.ofNat (0xE0 + n / 0x1000), UInt8.ofNat (0x80 + n / 0x40 % 0x40),
      UInt8.ofNat (0x80 + n % 0x40)]
  else
    [UInt8.ofNat (0xF0 + n / 0x40000), UInt8.ofNat (0x80 + n / 0x1000 % 0x40),
      UInt8.ofNat (0x80 + n / 0x40 % 0x40), UInt8.ofNat (0x80 + n % 0x40)]

/-- The bytes of a code unit that is not part of a pair; a surrogate becomes a question mark. -/
def utf8Unit (c : UInt16) : Bytes :=
  if isHighSurrogate c || isLowSurrogate c then [0x3F] else utf8Code c.toNat

/-- The code point of a pair of surrogates. -/
def codePoint (high low : UInt16) : Nat :=
  0x10000 + (high.toNat - 0xD800) * 0x400 + (low.toNat - 0xDC00)

def getBytes : JString → Bytes
  | [] => []
  | [c] => utf8Unit c
  | c :: d :: rest =>
    if isHighSurrogate c && isLowSurrogate d then utf8Code (codePoint c d) ++ getBytes rest
    else utf8Unit c ++ getBytes (d :: rest)

/-- The bytes of a text of ASCII characters. -/
def ascii (s : JString) : Bytes := s.map UInt16.toUInt8

def IsAscii (s : JString) : Prop := ∀ c ∈ s, c < 0x80

instance (s : JString) : Decidable (IsAscii s) :=
  inferInstanceAs (Decidable (∀ c ∈ s, c < 0x80))

theorem getBytes_cons {c : UInt16} {s : JString} (h : isHighSurrogate c = false) :
    getBytes (c :: s) = utf8Unit c ++ getBytes s := by
  cases s with
  | nil => simp [getBytes]
  | cons d s => simp [getBytes, h]

theorem getBytes_append {s t : JString} (h : ∀ c ∈ t.head?, isLowSurrogate c = false) :
    getBytes (s ++ t) = getBytes s ++ getBytes t := by
  fun_induction getBytes s with
  | case1 => rfl
  | case2 c =>
    cases t with
    | nil => simp [getBytes]
    | cons d t => simp [getBytes, h d rfl]
  | case3 c d rest hpair ih => simp [getBytes, hpair, ih]
  | case4 c d rest hpair ih =>
    rw [List.cons_append] at ih
    simp [getBytes, hpair, ih]

theorem isSurrogate_of_ascii {c : UInt16} (h : c < 0x80) :
    isHighSurrogate c = false ∧ isLowSurrogate c = false := by
  rw [UInt16.lt_iff_toNat_lt] at h
  simp only [isHighSurrogate, isLowSurrogate, Bool.and_eq_false_iff, decide_eq_false_iff_not,
    UInt16.le_iff_toNat_le]
  have h₀ : (0x80 : UInt16).toNat = 0x80 := rfl
  have h₁ : (0xD800 : UInt16).toNat = 0xD800 := rfl
  have h₂ : (0xDC00 : UInt16).toNat = 0xDC00 := rfl
  exact ⟨.inl (by omega), .inl (by omega)⟩

theorem getBytes_ascii_cons {c : UInt16} {s : JString} (h : c < 0x80) :
    getBytes (c :: s) = c.toUInt8 :: getBytes s := by
  obtain ⟨hhigh, hlow⟩ := isSurrogate_of_ascii h
  have hlt : c.toNat < 0x80 := UInt16.lt_iff_toNat_lt.mp h
  rw [getBytes_cons hhigh]
  simp [utf8Unit, hhigh, hlow, utf8Code, hlt]

theorem getBytes_ascii_append {s t : JString} (h : IsAscii s) :
    getBytes (s ++ t) = ascii s ++ getBytes t := by
  induction s with
  | nil => rfl
  | cons c s ih =>
    rw [List.cons_append, getBytes_ascii_cons (h c List.mem_cons_self),
      ih fun d hd => h d (List.mem_cons_of_mem _ hd)]
    rfl

theorem getBytes_of_isAscii {s : JString} (h : IsAscii s) : getBytes s = ascii s := by
  simpa [getBytes] using getBytes_ascii_append (t := []) h

theorem utf8Code_ne_nil (n : Nat) : utf8Code n ≠ [] := by
  unfold utf8Code
  split_ifs <;> exact List.cons_ne_nil _ _

theorem utf8Unit_ne_nil (c : UInt16) : utf8Unit c ≠ [] := by
  unfold utf8Unit
  split
  · exact List.cons_ne_nil _ _
  · exact utf8Code_ne_nil _

theorem getBytes_ne_nil {s : JString} (h : s ≠ []) : getBytes s ≠ [] := by
  fun_cases getBytes s with
  | case1 => exact absurd rfl h
  | case2 c => exact utf8Unit_ne_nil c
  | case3 c d rest => exact List.append_ne_nil_of_left_ne_nil (utf8Code_ne_nil _) _
  | case4 c d rest => exact List.append_ne_nil_of_left_ne_nil (utf8Unit_ne_nil c) _

theorem mem_utf8Code {n : Nat} {b : UInt8} (hn : n < 0x110000) (h : b ∈ utf8Code n) :
    (n < 0x80 ∧ b = UInt8.ofNat n) ∨ 0x80 ≤ b.toNat := by
  unfold utf8Code at h
  split at h
  · next hlt =>
    rw [List.mem_singleton] at h
    exact .inl ⟨hlt, h⟩
  · refine .inr ?_
    split at h
    · simp only [List.mem_cons, List.not_mem_nil, or_false] at h
      rcases h with rfl | rfl <;> simp <;> omega
    · split at h
      · simp only [List.mem_cons, List.not_mem_nil, or_false] at h
        rcases h with rfl | rfl | rfl <;> simp <;> omega
      · simp only [List.mem_cons, List.not_mem_nil, or_false] at h
        rcases h with rfl | rfl | rfl | rfl <;> simp <;> omega

theorem codePoint_bounds {c d : UInt16} (h : (isHighSurrogate c && isLowSurrogate d) = true) :
    0x10000 ≤ codePoint c d ∧ codePoint c d < 0x110000 := by
  simp only [isHighSurrogate, isLowSurrogate, Bool.and_eq_true, decide_eq_true_eq,
    UInt16.le_iff_toNat_le, UInt16.lt_iff_toNat_lt] at h
  have h₁ : (0xD800 : UInt16).toNat = 0xD800 := rfl
  have h₂ : (0xDC00 : UInt16).toNat = 0xDC00 := rfl
  have h₃ : (0xE000 : UInt16).toNat = 0xE000 := rfl
  unfold codePoint
  omega

theorem mem_utf8Unit {c : UInt16} {b : UInt8} (h : b ∈ utf8Unit c) :
    (c < 0x80 ∧ b = c.toUInt8) ∨ b = 0x3F ∨ 0x80 ≤ b.toNat := by
  unfold utf8Unit at h
  split at h
  · exact .inr (.inl (by simpa using h))
  · have hc := c.toNat_lt
    rcases mem_utf8Code (by omega) h with ⟨hlt, rfl⟩ | h
    · exact .inl ⟨UInt16.lt_iff_toNat_lt.mpr hlt, by simp⟩
    · exact .inr (.inr h)

/-- A byte below `0x80` is a character of the text, or stands for a lone surrogate. -/
theorem mem_getBytes {s : JString} {b : UInt8} (h : b ∈ getBytes s) :
    (∃ c ∈ s, c < 0x80 ∧ b = c.toUInt8) ∨ b = 0x3F ∨ 0x80 ≤ b.toNat := by
  fun_induction getBytes s with
  | case1 => exact absurd h List.not_mem_nil
  | case2 c => exact (mem_utf8Unit h).imp_left fun h => ⟨c, List.mem_cons_self, h⟩
  | case3 c d rest hpair ih =>
    rcases List.mem_append.mp h with h | h
    · obtain ⟨hge, hlt⟩ := codePoint_bounds hpair
      exact .inr (.inr ((mem_utf8Code hlt h).resolve_left fun h => by omega))
    · exact (ih h).imp_left fun ⟨e, he, h⟩ => ⟨e, by simp [he], h⟩
  | case4 c d rest hpair ih =>
    rcases List.mem_append.mp h with h | h
    · exact (mem_utf8Unit h).imp_left fun h => ⟨c, List.mem_cons_self, h⟩
    · exact (ih h).imp_left fun ⟨e, he, h⟩ => ⟨e, List.mem_cons_of_mem _ he, h⟩

theorem toUInt16_toUInt8 {c : UInt16} (h : c < 0x80) : c.toUInt8.toUInt16 = c := by
  rw [UInt16.lt_iff_toNat_lt] at h
  have h₀ : (0x80 : UInt16).toNat = 0x80 := rfl
  refine UInt16.toNat_inj.mp ?_
  simp
  omega

theorem toUInt16_mem {s : JString} (h : IsAscii s) {b : UInt8} (hb : b ∈ ascii s) :
    b.toUInt16 ∈ s := by
  obtain ⟨c, hc, rfl⟩ := List.mem_map.mp hb
  rwa [toUInt16_toUInt8 (h c hc)]

theorem forall_byte {p : UInt8 → Prop} (h : ∀ n : Fin 256, p (UInt8.ofNat n)) (c : UInt8) : p c := by
  have := h ⟨c.toNat, c.toNat_lt⟩
  simpa using this

theorem ascii_of_isAlnum {c : UInt16} (h : isAlnum c = true) : c < 0x80 := by
  simp only [isAlnum, inRange, Bool.or_eq_true, Bool.and_eq_true, decide_eq_true_eq,
    UInt16.le_iff_toNat_le] at h
  rw [UInt16.lt_iff_toNat_lt]
  have h₀ : (unit '9').toNat = 57 := by decide
  have h₁ : (unit 'Z').toNat = 90 := by decide
  have h₂ : (unit 'z').toNat = 122 := by decide
  have h₃ : (0x80 : UInt16).toNat = 128 := rfl
  omega

/-- A character below `0x3F` that is not in the text is not among its bytes. -/
theorem not_mem_getBytes {s : JString} {b : UInt8} (hb : b.toNat < 0x3F)
    (h : b.toUInt16 ∉ s) : b ∉ getBytes s := by
  intro hmem
  rcases mem_getBytes hmem with ⟨c, hc, hlt, rfl⟩ | rfl | hge
  · exact h ((toUInt16_toUInt8 hlt).symm ▸ hc)
  · exact absurd hb (by decide)
  · omega

end WgAndroid
