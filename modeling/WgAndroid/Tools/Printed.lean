import WgAndroid.Config.Sections
import WgAndroid.Tools.WgConfig
import WgAndroid.Tools.WgQuick

/-!
# Printed lines as the native tools see them

Between the printers of the app, which write lines of UTF-16 text, and the two native readers, which
drop the blanks from lines of bytes.

Results:
1. `getlines_unlines`: `getline` returns the printed lines.
2. `clean_line`, `clean_join`: what is left of a printed attribute and of a printed list.
3. `cleanInput_eq_clean`: the two readers drop the same blanks.
-/

namespace WgAndroid

open QuickOptions (clean clean_append clean_eq_filter clean_newline)

/-- A line of the file. -/
def encode (l : JString) : Bytes := getBytes l ++ [newline]

theorem ascii_text (s : String) : ascii (text s) = cstring s := by
  rw [ascii, text, cstring, List.map_map]
  refine List.map_congr_left fun c _ => ?_
  refine UInt8.toNat_inj.mp ?_
  simp [unit, byte]

theorem getBytes_unlines (ls : List JString) : getBytes (unlines ls) = ls.flatMap encode := by
  induction ls with
  | nil => rfl
  | cons l ls ih =>
    have hlow : ∀ c ∈ (LF :: unlines ls).head?, isLowSurrogate c = false := by
      intro c hc
      cases hc
      decide
    have hcons : unlines (l :: ls) = l ++ LF :: unlines ls := by
      rw [unlines, List.flatMap_cons, List.append_assoc]
      rfl
    rw [hcons, getBytes_append hlow, getBytes_ascii_cons (by decide), ih, List.flatMap_cons, encode,
      List.append_assoc]
    rfl

theorem newline_not_mem {l : JString} (h : ∀ c ∈ l, isBreak c = false) : newline ∉ getBytes l := by
  refine not_mem_getBytes (by decide) fun hc => ?_
  exact absurd (h _ hc) (by decide)

/-- `getline` returns the printed lines. -/
theorem getlines_unlines {ls : List JString} (h : ∀ l ∈ ls, ∀ c ∈ l, isBreak c = false) :
    getlines (getBytes (unlines ls)) = ls.map encode := by
  have hbytes : ∀ b ∈ ls.map getBytes, newline ∉ b := fun b hb => by
    obtain ⟨l, hl, rfl⟩ := List.mem_map.mp hb
    exact newline_not_mem (h l hl)
  have hlines := getlines_lines hbytes
  rw [List.flatMap_map, List.map_map] at hlines
  rw [getBytes_unlines]
  exact hlines

/-! ## Plain text -/

/-- No byte of a plain text is a blank or a NUL, ASCII or not. -/
theorem plain_bytes {s : JString} (h : Plain s) : ∀ b ∈ getBytes s, isspace b = false ∧ b ≠ 0 := by
  intro b hb
  rcases mem_getBytes hb with ⟨c, hc, hlt, rfl⟩ | rfl | hge
  · have htrim : isTrim c.toUInt8.toUInt16 = false := by
      rw [toUInt16_toUInt8 hlt]
      exact (h.2 c hc).1
    exact forall_byte (p := fun b => isTrim b.toUInt16 = false → isspace b = false ∧ b ≠ 0)
      (by decide +kernel) _ htrim
  · decide
  · exact forall_byte (p := fun b => 0x80 ≤ b.toNat → isspace b = false ∧ b ≠ 0)
      (by decide +kernel) b hge

theorem zero_not_mem_plain {s : JString} (h : Plain s) : 0 ∉ getBytes s :=
  fun h0 => (plain_bytes h 0 h0).2 rfl

theorem zero_not_mem_join {xs : List JString} (h : ∀ x ∈ xs, Plain x) :
    0 ∉ getBytes (Attribute.join xs) := by
  refine not_mem_getBytes (by decide) fun h0 => ?_
  rcases Attribute.mem_join h0 with h0 | h0 | ⟨x, hx, h0⟩
  · exact absurd h0 (by decide)
  · exact absurd h0 (by decide)
  · exact absurd ((h x hx).2 _ h0).1 (by decide)

/-- Something is left of a list of plain texts. -/
theorem clean_join_ne_nil {xs : List JString} (hne : xs ≠ []) (h : ∀ x ∈ xs, Plain x) :
    clean (getBytes (Attribute.join xs)) ≠ [] := by
  obtain ⟨x, xs, rfl⟩ := List.exists_cons_of_ne_nil hne
  have hx := h x List.mem_cons_self
  obtain ⟨rest, hrest, hlow⟩ : ∃ rest, Attribute.join (x :: xs) = x ++ rest ∧
      ∀ c ∈ rest.head?, isLowSurrogate c = false := by
    cases xs with
    | nil => exact ⟨[], by simp [Attribute.join], by simp⟩
    | cons y ys =>
      refine ⟨text ", " ++ Attribute.join (y :: ys), ?_, ?_⟩
      · rw [Attribute.join, List.intercalate_cons_cons, List.append_assoc]
        rfl
      · intro c hc
        cases hc
        decide
  rw [hrest, getBytes_append hlow, clean_append (zero_not_mem_plain hx),
    List.filter_eq_self.mpr fun b hb => by simp [(plain_bytes hx b hb).1]]
  exact List.append_ne_nil_of_left_ne_nil (getBytes_ne_nil hx.1) _

/-- A text that both readers take as it is. -/
structure Native (s : JString) : Prop where
  plain : Plain s
  ascii : IsAscii s

theorem native_bytes {s : JString} (h : Native s) :
    ∀ b ∈ ascii s, isspace b = false ∧ b ≠ 0 :=
  getBytes_of_isAscii h.ascii ▸ plain_bytes h.plain

theorem native_decimal (n : Nat) : Native (decimal n) :=
  ⟨plain_decimal n, fun _ hc => ascii_of_isAlnum (isAlnum_of_mem_decimal hc)⟩

theorem native_toBase64 (k : Key) : Native k.toBase64 := ⟨k.plain_toBase64, k.isAscii_toBase64⟩

theorem filter_native {s : JString} (h : Native s) :
    ((ascii s).filter fun c => !isspace c) = ascii s :=
  List.filter_eq_self.mpr fun b hb => by simp [(native_bytes h b hb).1]

theorem clean_native {s : JString} (h : Native s) : clean (getBytes s) = ascii s := by
  rw [getBytes_of_isAscii h.ascii, clean_eq_filter fun h0 => (native_bytes h 0 h0).2 rfl,
    filter_native h]

theorem ascii_append (s t : JString) : ascii (s ++ t) = ascii s ++ ascii t := List.map_append

theorem isAscii_join {xs : List JString} (h : ∀ x ∈ xs, Native x) :
    IsAscii (Attribute.join xs) := by
  intro c hc
  rcases Attribute.mem_join hc with rfl | rfl | ⟨x, hx, hc⟩
  · decide
  · decide
  · exact (h x hx).ascii c hc

theorem filter_join {xs : List JString} (h : ∀ x ∈ xs, Native x) :
    ((ascii (Attribute.join xs)).filter fun c => !isspace c) =
      [byte ','].intercalate (xs.map ascii) := by
  induction xs with
  | nil => rfl
  | cons x xs ih =>
    have hx := filter_native (h x List.mem_cons_self)
    cases xs with
    | nil => simpa [Attribute.join] using hx
    | cons y ys =>
      have hrest := ih fun z hz => h z (List.mem_cons_of_mem _ hz)
      have hsep : ((ascii (text ", ")).filter fun c => !isspace c) = [byte ','] := by decide
      rw [Attribute.join] at hrest ⊢
      rw [List.intercalate_cons_cons, ascii_append, ascii_append, List.filter_append,
        List.filter_append, hx, hsep, hrest]
      exact List.intercalate_cons_cons.symm

/-- A printed list is read as a list that is separated by commas only. -/
theorem clean_join {xs : List JString} (h : ∀ x ∈ xs, Native x) :
    clean (getBytes (Attribute.join xs)) = [byte ','].intercalate (xs.map ascii) := by
  rw [clean_eq_filter (zero_not_mem_join fun x hx => (h x hx).plain),
    getBytes_of_isAscii (isAscii_join h), filter_join h]

/-! ## Attributes -/

/-- A key of word characters, in bytes. -/
theorem bytes_of_isKey {name : String} (h : Attribute.IsKey (text name)) :
    IsAscii (text name) ∧ ∀ b ∈ cstring name, isspace b = false ∧ b ≠ 0 ∧ b ≠ byte '[' := by
  have hascii : IsAscii (text name) := by
    intro c hc
    have hword := h.2 c hc
    simp only [isWord, Bool.or_eq_true, beq_iff_eq] at hword
    rcases hword with hw | rfl
    · exact ascii_of_isAlnum hw
    · decide
  refine ⟨hascii, fun b hb => ?_⟩
  rw [← ascii_text] at hb
  exact forall_byte (p := fun b => isWord b.toUInt16 = true →
    isspace b = false ∧ b ≠ 0 ∧ b ≠ byte '[') (by decide +kernel) b
    (h.2 _ (toUInt16_mem hascii hb))

theorem encode_line {name : String} {v : JString} (h : Attribute.IsKey (text name)) :
    encode (Attribute.line name v) =
      cstring name ++ (cstring " = " ++ (getBytes v ++ [newline])) := by
  have hsep : IsAscii (text " = ") := by decide
  rw [encode, Attribute.line, getBytes_ascii_append (bytes_of_isKey h).1,
    getBytes_ascii_append hsep, ascii_text, ascii_text]
  simp only [List.append_assoc]

/-- What is left of a printed attribute. -/
theorem clean_line {name : String} {v : JString} (h : Attribute.IsKey (text name)) :
    clean (encode (Attribute.line name v)) =
      cstring name ++ (cstring "=" ++ clean (getBytes v)) := by
  have hname := (bytes_of_isKey h).2
  have hsep : ((cstring " = ").filter fun c => !isspace c) = cstring "=" := by decide
  rw [encode_line h, clean_append fun h0 => (hname 0 h0).2.1 rfl,
    List.filter_eq_self.mpr fun b hb => by simp [(hname b hb).1], clean_append (by decide), hsep,
    clean_newline]

/-- It is no header. -/
theorem head_clean_line {name : String} {v : JString} (h : Attribute.IsKey (text name)) :
    (clean (encode (Attribute.line name v))).head? ≠ some (byte '[') := by
  have hne : cstring name ≠ [] := by
    rw [← ascii_text]
    simpa [ascii] using h.1
  obtain ⟨c, cs, hc⟩ := List.exists_cons_of_ne_nil hne
  rw [clean_line h, hc]
  intro heq
  exact ((bytes_of_isKey h).2 c (hc ▸ List.mem_cons_self)).2.2 (Option.some.inj heq)

/-! ## The two readers -/

/-- The two readers drop the same blanks. -/
theorem cleanInput_eq_clean {s : Bytes} (h : byte '#' ∉ s) : cleanInput s = clean s := by
  have hhash : (cstr s).takeWhile (· != byte '#') = cstr s := by
    refine List.takeWhile_eq_self_iff.mpr fun c hc => bne_iff_ne.mpr ?_
    rintro rfl
    exact h ((List.takeWhile_prefix _).subset hc)
  rw [cleanInput, hhash, clean]
  simp only [charIsSpace_eq]

theorem hash_not_mem_encode {l : JString} (h : unit '#' ∉ l) : byte '#' ∉ encode l := by
  rw [encode, List.mem_append, not_or]
  exact ⟨not_mem_getBytes (by decide) h, by decide⟩

end WgAndroid
