import Mathlib.Data.List.Chain
import ValueGraph.Json.Token

namespace ValueGraph.Json

section Text

variable {c e : Char} {r : List Char} {u : Nat}

theorem hexDigit?_hexDigit : ∀ d < 16, hexDigit? (hexDigit d) = some d := by decide

theorem hex4?_control (h : u < 0x20) :
    hex4? '0' '0' (hexDigit (u / 16)) (hexDigit (u % 16)) = some u := by
  have hzero : hexDigit? '0' = some 0 := rfl
  have hhigh := hexDigit?_hexDigit (u / 16) (by omega)
  have hlow := hexDigit?_hexDigit (u % 16) (by omega)
  have hu : ((0 * 16 + 0) * 16 + u / 16) * 16 + u % 16 = u := by omega
  unfold hex4?
  rw [hzero, hhigh, hlow]
  exact congrArg some hu

theorem scanText_shortEscape (h : shortEscape? e = some c) :
    scanText ('\\' :: e :: r) = (scanText r).map (Prod.map (c.toNat :: ·) id) := by
  have hu : e ≠ 'u' := by
    rintro rfl
    cases h
  rw [scanText, h]
  · cases scanText r <;> rfl
  · exact fun _ _ _ _ _ he => absurd he hu

theorem scanText_control (h : u < 0x20) :
    scanText ('\\' :: 'u' :: '0' :: '0' :: hexDigit (u / 16) :: hexDigit (u % 16) :: r) =
      (scanText r).map (Prod.map (u :: ·) id) := by
  rw [scanText, hex4?_control h]
  cases scanText r <;> rfl

theorem scanText_unescaped (hlow : ¬ c.toNat < 0x20) (hquote : c ≠ '"') (hback : c ≠ '\\') :
    scanText (c :: r) = (scanText r).map (Prod.map (c.toNat :: ·) id) := by
  rw [scanText, if_neg (not_or.2 ⟨hlow, hback⟩)]
  · cases scanText r <;> rfl
  · exact hquote
  · exact fun _ _ _ _ _ h => absurd h hback
  · exact fun _ _ h => absurd h hback

/-- A character is read back, however it is escaped. -/
theorem scanText_writeChar :
    scanText (writeChar c ++ r) = (scanText r).map (Prod.map (c.toNat :: ·) id) := by
  unfold writeChar
  split
  case h_8 hquote hback _ _ _ _ _ =>
    split
    next hlow => exact scanText_control hlow
    next hlow => exact scanText_unescaped hlow hquote hback
  all_goals exact scanText_shortEscape rfl

theorem scanText_flatMap_writeChar {cs : List Char} :
    scanText (cs.flatMap writeChar ++ '"' :: r) = some (cs.map Char.toNat, r) := by
  induction cs with
  | nil => rfl
  | cons c cs ih =>
    rw [List.flatMap_cons, List.append_assoc, scanText_writeChar, ih]
    rfl

theorem not_isSurrogate_toNat (c : Char) :
    isHighSurrogate c.toNat = false ∧ isLowSurrogate c.toNat = false := by
  have hc : c.toNat < 0xD800 ∨ 0xDFFF < c.toNat ∧ c.toNat < 0x110000 := c.valid
  simp only [isHighSurrogate, isLowSurrogate, decide_eq_false_iff_not]
  omega

theorem joinSurrogates_map_toNat {cs : List Char} :
    joinSurrogates (cs.map Char.toNat) = some cs := by
  induction cs with
  | nil => rfl
  | cons c cs ih =>
    obtain ⟨hhigh, hlow⟩ := not_isSurrogate_toNat c
    cases cs with
    | nil => simp [joinSurrogates, hhigh, hlow]
    | cons d cs =>
      rw [List.map_cons, List.map_cons] at *
      simp [joinSurrogates, hhigh, hlow, ih]

end Text

section Number

variable {c : Char} {r : List Char} {n : Nat} {negative : Bool}

theorem digitsValue_toDigits : digitsValue (Nat.toDigits 10 n) = n := by
  unfold digitsValue
  simp only [Nat.mul_comm _ 10]
  rw [← Nat.ofDigitChars_eq_foldl, Nat.ofDigitChars_ten_toDigits]

theorem digitChar_ne_zero : ∀ d < 10, d ≠ 0 → Nat.digitChar d ≠ '0' := by decide

theorem head?_toDigits_ne (h : n ≠ 0) : (Nat.toDigits 10 n).head? ≠ some '0' := by
  induction n using Nat.strongRecOn with
  | _ n ih =>
    rw [Nat.toDigits_eq_if (by decide)]
    split
    next hn => simpa using digitChar_ne_zero n hn h
    next hn =>
      rw [List.head?_append, Option.or_of_isSome (List.isSome_head?.2 Nat.toDigits_ne_nil)]
      exact ih (n / 10) (by omega) (by omega)

theorem isDigit_of_mem_toDigits : ∀ c ∈ Nat.toDigits 10 n, c.isDigit = true := fun _ hc =>
  Nat.isDigit_of_mem_toDigits (by decide) (by decide) hc

/-- Does a number end before this text? -/
def EndsNumber (r : List Char) : Prop :=
  ∀ c ∈ r.head?, c.isDigit = false ∧ c ≠ '.' ∧ c ≠ 'e' ∧ c ≠ 'E'

theorem EndsNumber.takeWhile_isDigit (h : EndsNumber r) : r.takeWhile Char.isDigit = [] := by
  cases r with
  | nil => rfl
  | cons c r =>
    rw [List.takeWhile_cons, (h c rfl).1]
    rfl

theorem EndsNumber.dropWhile_isDigit (h : EndsNumber r) : r.dropWhile Char.isDigit = r := by
  cases r with
  | nil => rfl
  | cons c r =>
    rw [List.dropWhile_cons, (h c rfl).1]
    rfl

theorem scanWhole_toDigits (h : EndsNumber r) :
    scanWhole (Nat.toDigits 10 n ++ r) = some (n, r) := by
  unfold scanWhole
  rw [List.takeWhile_append_of_pos isDigit_of_mem_toDigits, h.takeWhile_isDigit, List.append_nil,
    List.dropWhile_append_of_pos isDigit_of_mem_toDigits, h.dropWhile_isDigit]
  split
  next hnil => exact absurd hnil Nat.toDigits_ne_nil
  next hzero =>
    -- Only zero starts with a zero, and it has one digit.
    by_cases hn : n = 0
    · subst hn
      cases hzero
    · exact absurd (by rw [hzero]; rfl) (head?_toDigits_ne hn)
  next => rw [digitsValue_toDigits]

theorem EndsNumber.scanFraction (h : EndsNumber r) : scanFraction r = some ([], r) := by
  unfold Json.scanFraction
  split
  next => exact absurd rfl (h _ rfl).2.1
  next => rfl

theorem EndsNumber.scanExponent (h : EndsNumber r) : scanExponent r = some ([], r) := by
  cases r with
  | nil => rfl
  | cons c r =>
    unfold Json.scanExponent
    exact if_neg (not_or.2 (h c rfl).2.2)

theorem scanNumber_toDigits (h : EndsNumber r) :
    scanNumber negative (Nat.toDigits 10 n ++ r) = some (⟨negative, n, []⟩, r) := by
  unfold scanNumber
  simp only [scanWhole_toDigits h, h.scanFraction, h.scanExponent, Option.bind_eq_bind,
    Option.bind_some]
  rfl

theorem isBlank_of_isDigit (h : c.isDigit = true) : isBlank c = false := by
  have hne : ∀ d, d.isDigit = false → c ≠ d := by
    rintro d hd rfl
    rw [hd] at h
    cases h
  simp [isBlank, hne]

theorem scanToken_of_isDigit (h : c.isDigit = true) :
    scanToken c r = (scanNumber false (c :: r)).map fun (n, r) => (.number n, r) := by
  unfold scanToken
  split
  case h_12 => rfl
  all_goals exact absurd h (by decide)

end Number

section Scan

namespace Token

def isNumber : Token → Bool
  | number _ => true
  | _ => false

/-- A number is plain if it has no fraction and no exponent. -/
def Plain : Token → Prop
  | number n => n.tail = []
  | _ => True

/-- Two numbers in a row would be read as one. -/
def Apart (t t' : Token) : Prop := t.isNumber = true → t'.isNumber = false

end Token

variable {t : Token} {ts : List Token} {r : List Char}

theorem endsNumber_write_append (h : t.isNumber = false) : EndsNumber (t.write ++ r) := by
  intro c hc
  cases t with
  | number => cases h
  | bool b => cases b <;> cases hc <;> decide
  | text s => cases s <;> cases hc <;> decide
  | _ => cases hc; decide

theorem scanToken_text {s : String} :
    scanToken '"' (s.toList.flatMap writeChar ++ ['"'] ++ r) = some (.text (some s), r) := by
  rw [scanToken, List.append_assoc, List.singleton_append, scanText_flatMap_writeChar]
  simp only [Option.bind_eq_bind, Option.bind_some, joinSurrogates_map_toNat, Option.map_some,
    String.ofList_toList]
  rfl

theorem exists_write_eq_cons (ht : t.Plain) (hr : t.isNumber = true → EndsNumber r) :
    ∃ c w, t.write = c :: w ∧ isBlank c = false ∧ scanToken c (w ++ r) = some (t, r) := by
  cases t with
  | number n =>
    obtain ⟨negative, n, tail⟩ := n
    cases (ht : tail = [])
    cases negative with
    | true =>
      refine ⟨'-', Nat.toDigits 10 n, ?_, rfl, ?_⟩
      · simp [Token.write, writeNumber]
      · rw [scanToken, scanNumber_toDigits (hr rfl)]
        rfl
    | false =>
      obtain ⟨c, w, hd⟩ := List.exists_cons_of_ne_nil (Nat.toDigits_ne_nil (n := n) (b := 10))
      have hc : c.isDigit = true := isDigit_of_mem_toDigits c (hd ▸ List.mem_cons_self)
      refine ⟨c, w, ?_, isBlank_of_isDigit hc, ?_⟩
      · simp [Token.write, writeNumber, hd]
      · rw [scanToken_of_isDigit hc, ← List.cons_append, ← hd, scanNumber_toDigits (hr rfl)]
        rfl
  | bool b => cases b <;> exact ⟨_, _, rfl, rfl, rfl⟩
  | text s =>
    cases s with
    | none => exact ⟨_, _, rfl, rfl, rfl⟩
    | some s => exact ⟨_, _, rfl, rfl, scanToken_text⟩
  | _ => exact ⟨_, _, rfl, rfl, rfl⟩

theorem endsNumber_of_isChain (h : (t :: ts).IsChain Token.Apart) (ht : t.isNumber = true) :
    EndsNumber (ts.flatMap Token.write) := by
  cases ts with
  | nil => exact nofun
  | cons t' ts => exact endsNumber_write_append (List.isChain_cons_cons.1 h |>.1 ht)

theorem scanAll_flatMap_write {fuel : Nat} (hplain : ∀ t ∈ ts, t.Plain)
    (hapart : ts.IsChain Token.Apart) (hfuel : (ts.flatMap Token.write).length ≤ fuel) :
    scanAll fuel (ts.flatMap Token.write) = some ts := by
  induction ts generalizing fuel with
  | nil => cases fuel <;> rfl
  | cons t ts ih =>
    obtain ⟨c, w, hw, hblank, hscan⟩ := exists_write_eq_cons
      (hplain t List.mem_cons_self) (endsNumber_of_isChain hapart)
    rw [List.flatMap_cons, hw, List.cons_append] at hfuel ⊢
    cases fuel with
    | zero => simp at hfuel
    | succ fuel =>
      rw [List.length_cons, List.length_append] at hfuel
      have hts : scanAll fuel (ts.flatMap Token.write) = some ts :=
        ih (fun t ht => hplain t (List.mem_cons_of_mem _ ht)) hapart.tail (by omega)
      simp [scanAll, hblank, hscan, hts]

/-- Plain tokens, no two numbers in a row among them, are read back from their text. -/
theorem scan_flatMap_write (hplain : ∀ t ∈ ts, t.Plain) (hapart : ts.IsChain Token.Apart) :
    scan (ts.flatMap Token.write) = some ts :=
  scanAll_flatMap_write hplain hapart (Nat.le_refl _)

end Scan

end ValueGraph.Json
