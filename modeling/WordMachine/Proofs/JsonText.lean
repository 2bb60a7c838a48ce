import Mathlib.Data.List.Basic
import WordMachine.Json.Reader
import WordMachine.Json.Writer

/-!
JSON text read back. The text that is written of a value is read as the same value, exactly if the
value keeps within the limits of the reader. Every part of the text moves the reader on, whatever
follows it, so the statements are about a text with an arbitrary rest.
-/
namespace WordMachine.Json

section Numbers

theorem spanDigits_append {ds rest : List Char} (hds : ∀ c ∈ ds, c.isDigit = true) (hne : ds ≠ [])
    (hrest : ∀ c ∈ rest.head?, c.isDigit = false) : spanDigits (ds ++ rest) = some (ds, rest) := by
  unfold spanDigits
  rw [List.takeWhile_append_of_pos hds, List.dropWhile_append_of_pos hds]
  cases rest with
  | nil => simp [hne]
  | cons c rest =>
    have hc := hrest c rfl
    simp [hne, hc]

theorem isDigit_of_mem_toDigits {n : ℕ} {c : Char} (h : c ∈ Nat.toDigits 10 n) :
    c.isDigit = true :=
  Nat.isDigit_of_mem_toDigits (by decide) (by decide) h

/-- Only zero itself is written with a leading zero. -/
theorem toDigits_of_head?_zero {n : ℕ} (h : (Nat.toDigits 10 n).head? = some '0') :
    Nat.toDigits 10 n = ['0'] := by
  induction n using Nat.strongRecOn with
  | ind n ih =>
    by_cases hn : n < 10
    · rw [Nat.toDigits_of_lt_base hn] at h ⊢
      simpa using h
    · have hn' : 10 ≤ n := by omega
      rw [Nat.toDigits_of_base_le (by decide) hn',
        List.head?_append_of_ne_nil _ Nat.toDigits_ne_nil] at h
      have hq := congrArg (Nat.ofDigitChars 10 · 0) (ih (n / 10) (by omega) h)
      simp only [Nat.ofDigitChars_ten_toDigits] at hq
      have hzero : Nat.ofDigitChars 10 ['0'] 0 = 0 := by decide
      omega

/-- A number without a fraction, which is an integer if it has no exponent. -/
def numeral (negative : Bool) (n : ℕ) : Option Int → Json
  | none => .int (if negative then -n else n)
  | some e => .decimal negative n e

/-- A number in digits, with whatever exponent comes after them. -/
theorem readUnsigned_toDigits (limits : Limits) (negative : Bool) (n : ℕ) (rest : List Char)
    (hdigit : ∀ c ∈ rest.head?, c.isDigit = false) (hpoint : rest.head? ≠ some '.') :
    readUnsigned limits negative (Nat.toDigits 10 n ++ rest) =
      if limits.allowsDigits (Nat.toDigits 10 n).length then
        (readExponent rest).map (numeral negative n)
      else none := by
  have hspan :=
    spanDigits_append (fun c => isDigit_of_mem_toDigits) (Nat.toDigits_ne_nil (n := n)) hdigit
  have hzero : ¬ ((Nat.toDigits 10 n).head? = some '0' ∧ Nat.toDigits 10 n ≠ ['0']) := by
    rintro ⟨hhead, hne⟩
    exact hne (toDigits_of_head?_zero hhead)
  unfold readUnsigned
  simp only [hspan, Option.bind_eq_bind, Option.bind_some, if_neg hzero]
  cases limits.allowsDigits (Nat.toDigits 10 n).length with
  | false => rfl
  | true =>
    simp only [Bool.not_true, Bool.false_eq_true, if_false, if_true]
    split
    · simp at hpoint
    · rw [List.append_nil, Nat.ofDigitChars_ten_toDigits]
      cases readExponent rest with
      | none => rfl
      | some exponent =>
        cases exponent with
        | none => rfl
        | some e => simp [numeral]

theorem digit_ne_sign {c : Char} (h : c.isDigit = true) : c ≠ '-' ∧ c ≠ '+' := by
  constructor <;> (rintro rfl; revert h; decide)

/-- The digits of a number as a list that begins with a digit. -/
theorem exists_toDigits_eq_cons (n : ℕ) :
    ∃ c cs, Nat.toDigits 10 n = c :: cs ∧ c.isDigit = true := by
  obtain ⟨c, cs, h⟩ := List.exists_cons_of_ne_nil (Nat.toDigits_ne_nil (n := n) (b := 10))
  exact ⟨c, cs, h, isDigit_of_mem_toDigits (h ▸ List.mem_cons_self)⟩

theorem spanDigits_toDigits (n : ℕ) :
    spanDigits (Nat.toDigits 10 n) = some (Nat.toDigits 10 n, []) := by
  have h : spanDigits (Nat.toDigits 10 n ++ []) = some (Nat.toDigits 10 n, []) :=
    spanDigits_append (fun c => isDigit_of_mem_toDigits) Nat.toDigits_ne_nil (by simp)
  rwa [List.append_nil] at h

theorem readExponent_writeInt (e : Int) : readExponent ('e' :: writeInt e) = some (some e) := by
  unfold readExponent
  cases e with
  | ofNat n =>
    obtain ⟨c, cs, hcs, hc⟩ := exists_toDigits_eq_cons n
    have hsign := digit_ne_sign hc
    have hspan := spanDigits_toDigits n
    have hvalue := Nat.ofDigitChars_ten_toDigits (n := n)
    rw [hcs] at hspan hvalue
    simp [writeInt, hcs, hsign, hspan, hvalue]
  | negSucc n =>
    simp [writeInt, spanDigits_toDigits, Int.negSucc_eq]

/-- A bare word that begins with a digit, or with one after a sign, is a number. -/
theorem readWord_unsigned (limits : Limits) {c : Char} (hc : c.isDigit = true) (cs : List Char) :
    readWord limits (c :: cs) = readUnsigned limits false (c :: cs) ∧
      readWord limits ('-' :: c :: cs) = readUnsigned limits true (c :: cs) := by
  have hne : c ≠ 'n' ∧ c ≠ 't' ∧ c ≠ 'f' ∧ c ≠ 'N' ∧ c ≠ '-' ∧ c ≠ 'I' := by
    refine ⟨?_, ?_, ?_, ?_, ?_, ?_⟩ <;> (rintro rfl; revert hc; decide)
  unfold readWord
  constructor <;> simp [hne]

theorem readWord_writeInt (limits : Limits) (n : Int) :
    readWord limits (writeInt n) =
      if limits.allowsDigits (Nat.toDigits 10 n.natAbs).length then some (.int n) else none := by
  have hread (negative : Bool) (m : ℕ) :=
    readUnsigned_toDigits limits negative m [] (by simp) (by simp)
  simp only [List.append_nil] at hread
  cases n with
  | ofNat m =>
    obtain ⟨c, cs, hcs, hc⟩ := exists_toDigits_eq_cons m
    have h := hread false m
    rw [hcs] at h
    rw [writeInt, hcs, (readWord_unsigned limits hc cs).1, h]
    simp [hcs, readExponent, numeral]
  | negSucc m =>
    obtain ⟨c, cs, hcs, hc⟩ := exists_toDigits_eq_cons (m + 1)
    have h := hread true (m + 1)
    rw [hcs] at h
    rw [writeInt, hcs, (readWord_unsigned limits hc cs).2, h, Int.natAbs_negSucc,
      Nat.succ_eq_add_one, hcs]
    simp [readExponent, numeral, Int.negSucc_eq]

/-- The text of a number with an exponent. -/
theorem readWord_decimal (limits : Limits) (negative : Bool) (m : ℕ) (e : Int) :
    readWord limits (write (.decimal negative m e)) =
      if limits.allowsDigits (Nat.toDigits 10 m).length then some (.decimal negative m e)
      else none := by
  have hread := readUnsigned_toDigits limits negative m ('e' :: writeInt e) (by simp) (by simp)
  rw [readExponent_writeInt] at hread
  obtain ⟨c, cs, hcs, hc⟩ := exists_toDigits_eq_cons m
  rw [hcs] at hread ⊢
  cases negative with
  | false =>
    have hword := (readWord_unsigned limits hc (cs ++ 'e' :: writeInt e)).1
    simp only [write, hcs, Bool.false_eq_true, if_false, List.nil_append,
      List.cons_append] at hread ⊢
    rw [hword, hread]
    rfl
  | true =>
    have hword := (readWord_unsigned limits hc (cs ++ 'e' :: writeInt e)).2
    simp only [write, hcs, if_true, List.nil_append, List.cons_append] at hread ⊢
    rw [hword, hread]
    rfl

end Numbers

def readFrom (limits : Limits) (r : Reader) (cs : List Char) : Option Json := do
  let r ← cs.foldlM (Reader.step limits) r
  r.finish limits

def resume (limits : Limits) (cs : List Char) (p : Parser) : Option Json :=
  readFrom limits ⟨p, .none⟩ cs

variable {limits : Limits} {p : Parser} {cs : List Char}

theorem readFrom_cons (r : Reader) (c : Char) :
    readFrom limits r (c :: cs) = (r.step limits c).bind (readFrom limits · cs) := by
  unfold readFrom
  rw [List.foldlM_cons]
  exact Option.bind_assoc _ _ _

theorem resume_cons (c : Char) :
    resume limits (c :: cs) p = (Reader.between limits p c).bind (readFrom limits · cs) :=
  readFrom_cons ⟨p, .none⟩ c

section Words

def EndsWord (cs : List Char) : Prop := ∀ c ∈ cs.head?, Reader.endsWord c = true

def IsWord (w : List Char) : Prop := w ≠ [] ∧ ∀ c ∈ w, Reader.endsWord c = false

-- Through the list, since a search over all characters would decide it too.
instance (w : List Char) : Decidable (IsWord w) :=
  decidable_of_iff (w ≠ [] ∧ (w.all fun c => !Reader.endsWord c) = true) (by simp [IsWord])

theorem between_of_not_endsWord {c : Char} (h : Reader.endsWord c = false) :
    Reader.between limits p c = some ⟨p, .word [c]⟩ := by
  simp [Reader.endsWord] at h
  simp [Reader.between, h]

/-- A word is read whole when it ends, and then the rest goes on behind it. -/
theorem readFrom_word {w : List Char} (hw : ∀ c ∈ w, Reader.endsWord c = false) (hcs : EndsWord cs)
    (rev : List Char) :
    readFrom limits ⟨p, .word rev⟩ (w ++ cs) = (readWord limits (rev.reverse ++ w)).bind fun v =>
      (p.accept limits.depth (.atom v)).bind (resume limits cs) := by
  induction w generalizing rev with
  | nil =>
    rw [List.nil_append, List.append_nil]
    cases cs with
    | nil =>
      simp only [readFrom, List.foldlM_nil, Option.pure_def, Option.bind_eq_bind, Option.bind_some,
        Reader.finish]
      rfl
    | cons c cs =>
      have hc : Reader.endsWord c = true := hcs c rfl
      have hrest :
          resume limits (c :: cs) = fun q =>
            (Reader.between limits q c).bind (readFrom limits · cs) :=
        funext fun q => resume_cons c
      rw [readFrom_cons, hrest]
      simp only [Reader.step, hc, if_true, Option.bind_eq_bind, Option.bind_assoc]
  | cons c w ih =>
    have hc : Reader.endsWord c = false := hw c List.mem_cons_self
    have hstep : Reader.step limits ⟨p, .word rev⟩ c = some ⟨p, .word (c :: rev)⟩ := by
      simp [Reader.step, hc]
    rw [List.cons_append, readFrom_cons, hstep, Option.bind_some,
      ih (fun d hd => hw d (List.mem_cons_of_mem c hd)), List.reverse_cons, List.append_assoc]
    rfl

theorem resume_word {w : List Char} (hw : IsWord w) (hcs : EndsWord cs) :
    resume limits (w ++ cs) p = (readWord limits w).bind fun v =>
      (p.accept limits.depth (.atom v)).bind (resume limits cs) := by
  obtain ⟨c, w, rfl⟩ := List.exists_cons_of_ne_nil hw.1
  rw [List.cons_append, resume_cons, between_of_not_endsWord (hw.2 c List.mem_cons_self),
    Option.bind_some, readFrom_word (fun d hd => hw.2 d (List.mem_cons_of_mem c hd)) hcs]
  rfl

end Words

section Strings

theorem hexValue_code : ∀ n < 0x20, (padLeft '0' 4 (Nat.toDigits 16 n)).map Reader.hexValue =
    [some 0, some 0, some (n / 16), some (n % 16)] := by decide

/-- Four hexadecimal digits. -/
theorem readFrom_code {ds : List Char} {v₃ v₂ v₁ v₀ : ℕ}
    (hds : ds.map Reader.hexValue = [some v₃, some v₂, some v₁, some v₀]) (rev : List Char) :
    readFrom limits ⟨p, .code rev none 4 0⟩ (ds ++ cs) =
      (Reader.complete rev none (16 * (16 * (16 * v₃ + v₂) + v₁) + v₀)).bind fun q =>
        readFrom limits ⟨p, q⟩ cs := by
  simp only [List.map_eq_cons_iff, List.map_eq_nil_iff] at hds
  obtain ⟨d₃, _, rfl, h₃, d₂, _, rfl, h₂, d₁, _, rfl, h₁, d₀, _, rfl, h₀, rfl⟩ := hds
  simp [readFrom_cons, Reader.step, h₃, h₂, h₁, h₀, Option.map_eq_bind, Option.bind_assoc]

/-- A character of a string is read back, however it is written. -/
theorem readFrom_writeChar (c : Char) (rev : List Char) :
    readFrom limits ⟨p, .text rev⟩ (writeChar c ++ cs) =
      readFrom limits ⟨p, .text (c :: rev)⟩ cs := by
  unfold writeChar
  split_ifs with hquote hslash hline hreturn htab hback hfeed hcontrol
  · subst hquote
    rfl
  · subst hslash
    rfl
  · subst hline
    rfl
  · subst hreturn
    rfl
  · subst htab
    rfl
  · subst hback
    rfl
  · subst hfeed
    rfl
  · have hcode : readFrom limits ⟨p, .code rev none 4 0⟩
        (padLeft '0' 4 (Nat.toDigits 16 c.toNat) ++ cs) = _ :=
      readFrom_code (hexValue_code c.toNat hcontrol) rev
    have hvalue : 16 * (16 * (16 * 0 + 0) + c.toNat / 16) + c.toNat % 16 = c.toNat := by omega
    have hcomplete : Reader.complete rev none c.toNat = some (.text (c :: rev)) := by
      unfold Reader.complete
      rw [if_neg (by omega), if_neg (by omega), Char.ofNat_toNat]
    rw [hvalue, hcomplete] at hcode
    exact hcode
  · simp [readFrom_cons, Reader.step, hquote, hslash, hcontrol]

theorem readFrom_text (s rev : List Char) :
    readFrom limits ⟨p, .text rev⟩ (s.flatMap writeChar ++ '"' :: cs) =
      (p.accept limits.depth (.str (String.ofList (rev.reverse ++ s)))).bind
      (resume limits cs) := by
  induction s generalizing rev with
  | nil =>
    rw [List.flatMap_nil, List.nil_append, List.append_nil, readFrom_cons]
    simp only [Reader.step, if_true, Option.bind_map]
    rfl
  | cons c s ih =>
    rw [List.flatMap_cons, List.append_assoc, readFrom_writeChar, ih, List.reverse_cons,
      List.append_assoc]
    rfl

theorem resume_writeString (s : String) :
    resume limits (writeString s ++ cs) p = (p.accept limits.depth (.str s)).bind
      (resume limits cs) := by
  have htext : readFrom limits ⟨p, .text []⟩ (s.toList.flatMap writeChar ++ '"' :: cs) = _ :=
    readFrom_text s.toList []
  rw [List.reverse_nil, List.nil_append, String.ofList_toList] at htext
  unfold writeString
  simp only [List.cons_append, List.append_assoc, List.nil_append]
  rw [resume_cons]
  exact htext

end Strings

section Values

mutual

/-- Whether a value inside of `level` others keeps within the limits: no value stands too deep, and
no number has too many digits. -/
def fits (limits : Limits) (level : ℕ) : Json → Bool
  | .int n => level ≤ limits.depth && limits.allowsDigits (Nat.toDigits 10 n.natAbs).length
  | .decimal _ m _ => level ≤ limits.depth && limits.allowsDigits (Nat.toDigits 10 m).length
  | .arr items => level ≤ limits.depth && fitsItems limits (level + 1) items
  | .obj fields => level ≤ limits.depth && fitsFields limits (level + 1) fields
  | _ => level ≤ limits.depth

def fitsItems (limits : Limits) (level : ℕ) : List Json → Bool
  | [] => true
  | v :: vs => fits limits level v && fitsItems limits level vs

def fitsFields (limits : Limits) (level : ℕ) : List (String × Json) → Bool
  | [] => true
  | (_, v) :: fs => fits limits level v && fitsFields limits level fs

end

def Goal.TakesValue (g : Goal) : Prop := g = .value ∨ g = .valueOrClose

variable {stack : List Frame} {g : Goal}

theorem accept_begin (hg : g.TakesValue) (limit : ℕ) {t : Token} (ht : t ≠ .closeArr) :
    Parser.accept limit ⟨stack, g⟩ t = Parser.begin limit stack t := by
  rcases hg with rfl | rfl
  · rfl
  · cases t with
    | closeArr => exact absurd rfl ht
    | _ => rfl

theorem begin_of_lt {limit : ℕ} (h : limit < stack.length) (t : Token) :
    Parser.begin limit stack t = none := if_pos h

/-- The text of a value that is a bare word, read as that value if `ok`. -/
theorem resume_atom {v : Json} (ok : Bool) (hw : IsWord (write v))
    (hread : readWord limits (write v) = if ok then some v else none)
    (hfits : fits limits stack.length v = (decide (stack.length ≤ limits.depth) && ok))
    (hg : g.TakesValue) (hcs : EndsWord cs) :
    resume limits (write v ++ cs) ⟨stack, g⟩ =
      if fits limits stack.length v then (Parser.deliver v stack).bind
        (resume limits cs) else none := by
  rw [resume_word hw hcs, hread, hfits]
  by_cases hlevel : stack.length ≤ limits.depth
  · cases ok with
    | false => simp
    | true => simp [accept_begin hg, Parser.begin, hlevel, Nat.not_lt.mpr hlevel]
  · have hrefuse (t : Token) : Parser.begin limits.depth stack t = none := begin_of_lt (by omega) t
    cases ok with
    | false => simp
    | true => simp [accept_begin hg, hrefuse, hlevel]

theorem endsWord_digit {c : Char} (h : c.isDigit = true) : Reader.endsWord c = false := by
  have hnone : (" \n\t\r[]\x7b\x7d,:\"".toList.all fun d => !d.isDigit) = true := by decide
  cases hc : Reader.endsWord c with
  | false => rfl
  | true =>
    have hd := List.all_eq_true.mp hnone c (List.contains_iff_mem.mp hc)
    rw [h] at hd
    cases hd

theorem isWord_toDigits (n : ℕ) : IsWord (Nat.toDigits 10 n) :=
  ⟨Nat.toDigits_ne_nil, fun _ hc => endsWord_digit (isDigit_of_mem_toDigits hc)⟩

theorem IsWord.append {w w' : List Char} (h : IsWord w)
    (h' : ∀ c ∈ w', Reader.endsWord c = false) : IsWord (w ++ w') := by
  constructor
  · simp [h.1]
  · intro c hc
    rcases List.mem_append.mp hc with hc | hc
    · exact h.2 c hc
    · exact h' c hc

theorem isWord_singleton {c : Char} (h : Reader.endsWord c = false) : IsWord [c] := by
  constructor
  · simp
  · simpa using h

theorem isWord_writeInt (n : Int) : IsWord (writeInt n) := by
  cases n with
  | ofNat n => exact isWord_toDigits n
  | negSucc n => exact (isWord_singleton (by decide)).append (isWord_toDigits (n + 1)).2

theorem isWord_decimal (negative : Bool) (m : ℕ) (e : Int) :
    IsWord (write (.decimal negative m e)) := by
  have hexp : IsWord ('e' :: writeInt e) :=
    (isWord_singleton (by decide)).append (isWord_writeInt e).2
  have hword : IsWord (Nat.toDigits 10 m ++ 'e' :: writeInt e) := (isWord_toDigits m).append hexp.2
  cases negative with
  | false => simpa [write] using hword
  | true => simpa [write] using (isWord_singleton (by decide)).append hword.2

theorem EndsWord.cons {c : Char} (h : Reader.endsWord c = true) (cs : List Char) :
    EndsWord (c :: cs) := by
  intro d hd
  cases hd
  exact h

theorem endsWord_writeItems (vs : List Json) (cs : List Char) :
    EndsWord (writeItems vs ++ cs) := by
  cases vs with
  | nil => exact .cons (by decide) _
  | cons v vs => exact .cons (by decide) _

theorem endsWord_writeFields (fs : List (String × Json)) (cs : List Char) :
    EndsWord (writeFields fs ++ cs) := by
  cases fs with
  | nil => exact .cons (by decide) _
  | cons f fs => exact .cons (by decide) _

/-- An opening bracket or brace, as the token `t` with its frame. -/
theorem resume_open {c : Char} {t : Token} {frame : Frame} {next : Goal} (hg : g.TakesValue)
    (ht : t ≠ .closeArr)
    (hc : ∀ p : Parser, Reader.between limits p c = (p.accept limits.depth t).map fun q =>
      ⟨q, .none⟩)
    (hbegin : stack.length ≤ limits.depth →
      Parser.begin limits.depth stack t = some ⟨frame :: stack, next⟩) :
    resume limits (c :: cs) ⟨stack, g⟩ =
      if stack.length ≤ limits.depth then resume limits cs ⟨frame :: stack, next⟩ else none := by
  rw [resume_cons, hc, accept_begin hg _ ht]
  by_cases hlevel : stack.length ≤ limits.depth
  · rw [hbegin hlevel, if_pos hlevel]
    rfl
  · rw [begin_of_lt (Nat.not_le.mp hlevel), if_neg hlevel]
    rfl

theorem resume_openArr (hg : g.TakesValue) :
    resume limits ('[' :: cs) ⟨stack, g⟩ =
      if stack.length ≤ limits.depth then resume limits cs ⟨.items [] :: stack,
        .valueOrClose⟩ else none :=
  resume_open hg (by simp) (fun _ => rfl) fun h => if_neg (Nat.not_lt.mpr h)

theorem resume_openObj (hg : g.TakesValue) :
    resume limits ('\x7b' :: cs) ⟨stack, g⟩ =
      if stack.length ≤ limits.depth then resume limits cs ⟨.fields [] :: stack,
        .keyOrClose⟩ else none :=
  resume_open hg (by simp) (fun _ => rfl) fun h => if_neg (Nat.not_lt.mpr h)

/-- A closing bracket after an item, or in an array without any. -/
theorem resume_closeArr (hg : g = .separator ∨ g = .valueOrClose) (rev : List Json) :
    resume limits (']' :: cs) ⟨.items rev :: stack, g⟩ =
      (Parser.deliver (.arr rev.reverse) stack).bind (resume limits cs) := by
  rw [resume_cons]
  rcases hg with rfl | rfl <;> exact Option.bind_map

theorem resume_closeObj (hg : g = .separator ∨ g = .keyOrClose) (rev : List (String × Json)) :
    resume limits ('\x7d' :: cs) ⟨.fields rev :: stack, g⟩ =
      (Parser.deliver (.obj rev.reverse) stack).bind (resume limits cs) := by
  rw [resume_cons]
  rcases hg with rfl | rfl <;> exact Option.bind_map

/-- The first key of an object and the colon behind it, or a later key and its colon. -/
theorem resume_key (hg : g = .key ∨ g = .keyOrClose) (rev : List (String × Json)) (k : String) :
    resume limits (writeString k ++ ':' :: cs) ⟨.fields rev :: stack, g⟩ =
      resume limits cs ⟨.member rev k :: stack, .value⟩ := by
  have haccept : Parser.accept limits.depth ⟨.fields rev :: stack, g⟩ (.str k) =
      some ⟨.fields rev :: stack, .colon k⟩ := by
    rcases hg with rfl | rfl <;> rfl
  rw [resume_writeString, haccept, Option.bind_some, resume_cons]
  rfl

/-- A value that is written by a name of its own. -/
theorem resume_name {v : Json} {w : String} (hwrite : write v = w.toList) (hw : IsWord w.toList)
    (hread : readWord limits w.toList = some v)
    (hfits : fits limits stack.length v = decide (stack.length ≤ limits.depth)) (hg : g.TakesValue)
    (hcs : EndsWord cs) :
    resume limits (write v ++ cs) ⟨stack, g⟩ =
      if fits limits stack.length v then (Parser.deliver v stack).bind
        (resume limits cs) else none := by
  rw [← hwrite] at hw hread
  exact resume_atom true hw hread (by rw [hfits, Bool.and_true]) hg hcs

mutual

/-- The text of a value delivers the value, if it keeps within the limits; otherwise reading
fails. -/
theorem resume_write (v : Json) (stack : List Frame) (g : Goal) (cs : List Char)
    (hg : g.TakesValue) (hcs : EndsWord cs) :
    resume limits (write v ++ cs) ⟨stack, g⟩ =
      if fits limits stack.length v then (Parser.deliver v stack).bind
        (resume limits cs) else none := by
  match v with
  | .null =>
    have hw : IsWord "null".toList := by decide
    exact resume_name (by simp [write]) hw (by simp [readWord]) (by simp [fits]) hg hcs
  | .bool true =>
    have hw : IsWord "true".toList := by decide
    exact resume_name (by simp [write]) hw (by simp [readWord]) (by simp [fits]) hg hcs
  | .bool false =>
    have hw : IsWord "false".toList := by decide
    exact resume_name (by simp [write]) hw (by simp [readWord]) (by simp [fits]) hg hcs
  | .nan =>
    have hw : IsWord "NaN".toList := by decide
    exact resume_name (by simp [write]) hw (by simp [readWord]) (by simp [fits]) hg hcs
  | .infinity false =>
    have hw : IsWord "Infinity".toList := by decide
    exact resume_name (by simp [write]) hw (by simp [readWord]) (by simp [fits]) hg hcs
  | .infinity true =>
    have hw : IsWord "-Infinity".toList := by decide
    exact resume_name (by simp [write]) hw (by simp [readWord]) (by simp [fits]) hg hcs
  | .int n =>
    have hwrite : write (.int n) = writeInt n := by simp [write]
    exact resume_atom _ (hwrite ▸ isWord_writeInt n) (hwrite ▸ readWord_writeInt limits n)
      (by simp [fits])
      hg hcs
  | .decimal negative m e =>
    exact resume_atom _ (isWord_decimal negative m e) (readWord_decimal limits negative m e)
      (by simp [fits])
      hg hcs
  | .str s =>
    rw [write, resume_writeString, accept_begin hg _ (by simp)]
    by_cases hlevel : stack.length ≤ limits.depth
    · simp [fits, Parser.begin, hlevel, Nat.not_lt.mpr hlevel]
    · simp [fits, begin_of_lt (Nat.not_le.mp hlevel), hlevel]
  | .arr [] =>
    rw [write, List.cons_append, resume_openArr hg, List.singleton_append,
      resume_closeArr (Or.inr rfl)]
    simp [fits, fitsItems]
  | .arr (v :: vs) =>
    have hv := resume_write v (.items [] :: stack) .valueOrClose (writeItems vs ++ cs) (Or.inr rfl)
      (endsWord_writeItems vs cs)
    have hvs := resume_writeItems vs [v] stack cs
    simp only [write, List.cons_append, List.append_assoc, resume_openArr hg, hv, fits, fitsItems,
      List.length_cons, Bool.and_eq_true, decide_eq_true_eq]
    by_cases hlevel : stack.length ≤ limits.depth
    · by_cases hfits : fits limits (stack.length + 1) v = true
      · simpa [hlevel, hfits, Parser.deliver] using hvs
      · simp [hfits]
    · simp [hlevel]
  | .obj [] =>
    rw [write, List.cons_append, resume_openObj hg, List.singleton_append,
      resume_closeObj (Or.inr rfl)]
    simp [fits, fitsFields]
  | .obj ((k, v) :: fs) =>
    have hv := resume_write v (.member [] k :: stack) .value (writeFields fs ++ cs) (Or.inl rfl)
      (endsWord_writeFields fs cs)
    have hfs := resume_writeFields fs [(k, v)] stack cs
    simp only [write, List.cons_append, List.append_assoc, resume_openObj hg,
      resume_key (Or.inr rfl), hv, fits, fitsFields, List.length_cons, Bool.and_eq_true,
      decide_eq_true_eq]
    by_cases hlevel : stack.length ≤ limits.depth
    · by_cases hfits : fits limits (stack.length + 1) v = true
      · simpa [hlevel, hfits, Parser.deliver] using hfs
      · simp [hfits]
    · simp [hlevel]

theorem resume_writeItems (vs rev : List Json) (stack : List Frame) (cs : List Char) :
    resume limits (writeItems vs ++ cs) ⟨.items rev :: stack, .separator⟩ =
      if fitsItems limits (stack.length + 1) vs then
        (Parser.deliver (.arr (rev.reverse ++ vs)) stack).bind (resume limits cs)
      else none := by
  match vs with
  | [] =>
    rw [writeItems, List.singleton_append, resume_closeArr (Or.inl rfl)]
    simp [fitsItems]
  | v :: vs =>
    have hv := resume_write v (.items rev :: stack) .value (writeItems vs ++ cs) (Or.inl rfl)
      (endsWord_writeItems vs cs)
    have hvs := resume_writeItems vs (v :: rev) stack cs
    have hcomma : resume limits (writeItems (v :: vs) ++ cs) ⟨.items rev :: stack, .separator⟩ =
        resume limits (write v ++ (writeItems vs ++ cs)) ⟨.items rev :: stack, .value⟩ := by
      simp only [writeItems, List.cons_append, List.append_assoc]
      rw [resume_cons]
      rfl
    simp only [hcomma, hv, fitsItems, List.length_cons]
    by_cases hfits : fits limits (stack.length + 1) v = true
    · simpa [hfits, Parser.deliver] using hvs
    · simp [hfits]

theorem resume_writeFields (fs rev : List (String × Json)) (stack : List Frame) (cs : List Char) :
    resume limits (writeFields fs ++ cs) ⟨.fields rev :: stack, .separator⟩ =
      if fitsFields limits (stack.length + 1) fs then
        (Parser.deliver (.obj (rev.reverse ++ fs)) stack).bind (resume limits cs)
      else none := by
  match fs with
  | [] =>
    rw [writeFields, List.singleton_append, resume_closeObj (Or.inl rfl)]
    simp [fitsFields]
  | (k, v) :: fs =>
    have hv := resume_write v (.member rev k :: stack) .value (writeFields fs ++ cs) (Or.inl rfl)
      (endsWord_writeFields fs cs)
    have hfs := resume_writeFields fs ((k, v) :: rev) stack cs
    have hcomma :
        resume limits (writeFields ((k, v) :: fs) ++ cs) ⟨.fields rev :: stack, .separator⟩ =
        resume limits (writeString k ++ ':' :: (write v ++ (writeFields fs ++ cs)))
          ⟨.fields rev :: stack, .key⟩ := by
      simp only [writeFields, List.cons_append, List.append_assoc]
      rw [resume_cons]
      rfl
    simp only [hcomma, resume_key (Or.inl rfl), hv, fitsFields, List.length_cons]
    by_cases hfits : fits limits (stack.length + 1) v = true
    · simpa [hfits, Parser.deliver] using hfs
    · simp [hfits]

end

end Values

/-- The text of a value is read as that value, exactly if the value keeps within the limits. -/
theorem parse_compress (limits : Limits) (j : Json) :
    parse limits j.compress = if j.fits limits 0 then some j else none := by
  have hread : resume limits (j.write ++ []) ⟨[], .value⟩ = _ :=
    resume_write j [] .value [] (Or.inl rfl) (by simp [EndsWord])
  rw [List.append_nil] at hread
  unfold parse compress
  rw [String.toList_ofList]
  exact hread

end WordMachine.Json
