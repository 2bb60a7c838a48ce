import WordMachine.Instruction.Valid
import WordMachine.Listing
import WordMachine.Proofs.RoundTrip

/-!
What a line of the listing says. A line is a mnemonic with the tokens that follow it, or the
application of a rule, whose name may be any text. No two lines have one text.
-/
namespace WordMachine

section Cuts
variable {α : Type} {c : α} {u u' s s' : List α}

/-- Two texts that are one are cut at the same place where `c` comes first. -/
theorem cut_first (hu : c ∉ u) (hu' : c ∉ u') (h : u ++ c :: s = u' ++ c :: s') :
    u = u' ∧ s = s' := by
  induction u generalizing u' with
  | nil =>
    cases u' with
    | nil => exact ⟨rfl, List.tail_eq_of_cons_eq h⟩
    | cons x u' => exact absurd (List.head_eq_of_cons_eq h ▸ List.mem_cons_self) hu'
  | cons x u ih =>
    cases u' with
    | nil => exact absurd (List.head_eq_of_cons_eq h ▸ List.mem_cons_self) hu
    | cons x' u' =>
      obtain ⟨rfl, hrest⟩ := List.cons.inj h
      obtain ⟨rfl, rfl⟩ :=
        ih (List.not_mem_of_not_mem_cons hu) (List.not_mem_of_not_mem_cons hu') hrest
      exact ⟨rfl, rfl⟩

theorem cut_last (hs : c ∉ s) (hs' : c ∉ s') (h : u ++ c :: s = u' ++ c :: s') :
    u = u' ∧ s = s' := by
  have hreverse : s.reverse ++ c :: u.reverse = s'.reverse ++ c :: u'.reverse := by
    simpa using congrArg List.reverse h
  obtain ⟨hs, hu⟩ := cut_first (by simpa using hs) (by simpa using hs') hreverse
  exact ⟨List.reverse_injective hu, List.reverse_injective hs⟩

/-- Items without the character that separators begin with are told from their enumeration. -/
theorem intercalate_inj {x y : List α} {xs ys : List (List α)} (hx : ∀ z ∈ x :: xs, c ∉ z)
    (hy : ∀ z ∈ y :: ys, c ∉ z)
    (h : (c :: s).intercalate (x :: xs) = (c :: s).intercalate (y :: ys)) :
    x :: xs = y :: ys := by
  induction xs generalizing x y ys with
  | nil =>
    cases ys with
    | nil => simpa using h
    | cons z ys =>
      have hmem : c ∈ (c :: s).intercalate (y :: z :: ys) := by simp [List.intercalate_cons_cons]
      rw [← h, List.intercalate_singleton] at hmem
      exact absurd hmem (hx x List.mem_cons_self)
  | cons x' xs ih =>
    cases ys with
    | nil =>
      have hmem : c ∈ (c :: s).intercalate (x :: x' :: xs) := by simp [List.intercalate_cons_cons]
      rw [h, List.intercalate_singleton] at hmem
      exact absurd hmem (hy y List.mem_cons_self)
    | cons y' ys =>
      rw [List.intercalate_cons_cons, List.intercalate_cons_cons, List.append_assoc,
        List.append_assoc] at h
      obtain ⟨rfl, hrest⟩ := cut_first (hx x List.mem_cons_self) (hy y List.mem_cons_self) h
      rw [ih (fun z hz => hx z (List.mem_cons_of_mem _ hz))
        (fun z hz => hy z (List.mem_cons_of_mem _ hz))
        (List.append_cancel_left hrest)]

end Cuts

section Integers
open Json

theorem toList_repr (n : Int) : n.repr.toList = writeInt n := by
  cases n <;> simp [writeInt, Int.repr]

theorem writeInt_natCast (n : Nat) : writeInt n = Nat.toDigits 10 n := rfl

theorem writeInt_injective : Function.Injective writeInt := by
  intro m n h
  have hread := readWord_writeInt ⟨0, none⟩ m
  rw [h, readWord_writeInt] at hread
  simpa [Limits.allowsDigits] using hread.symm

def isNumeral (c : Char) : Bool := c.isDigit || c == '-'

theorem isNumeral_of_mem_writeInt {n : Int} {c : Char} (h : c ∈ writeInt n) :
    isNumeral c = true := by
  cases n with
  | ofNat n => simp [isNumeral, isDigit_of_mem_toDigits h]
  | negSucc n =>
    rcases List.mem_cons.mp h with rfl | h
    · rfl
    · simp [isNumeral, isDigit_of_mem_toDigits h]

theorem not_mem_writeInt {n : Int} {c : Char} (hc : isNumeral c = false) : c ∉ writeInt n :=
  fun h =>
  Bool.false_ne_true (hc.symm.trans (isNumeral_of_mem_writeInt h))

theorem writeInt_ne_nil (n : Int) : writeInt n ≠ [] := by
  cases n <;> simp [writeInt]

theorem exists_writeInt_eq_cons (n : Int) : ∃ c cs, writeInt n = c :: cs ∧ isNumeral c = true := by
  obtain ⟨c, cs, h⟩ := List.exists_cons_of_ne_nil (writeInt_ne_nil n)
  exact ⟨c, cs, h, isNumeral_of_mem_writeInt (h ▸ List.mem_cons_self)⟩

end Integers

inductive Token
  | star
  | reg (index : Int)
  | imm (value : Int)
  | absolute (index : Int)
  | indirect (reg : Int)
  | number (n : Int)

namespace Token
open Json

def text : Token → List Char
  | star => ['*']
  | reg i => 'r' :: writeInt i
  | imm v => '#' :: writeInt v
  | absolute i => '[' :: writeInt i ++ [']']
  | indirect i => '[' :: 'r' :: writeInt i ++ [']']
  | number n => writeInt n

theorem text_ne_nil (t : Token) : t.text ≠ [] := by
  cases t <;> simp [text, writeInt_ne_nil]

theorem not_mem_text {t : Token} {c : Char} (hnum : isNumeral c = false)
    (hc : c ∉ ['*', 'r', '#', '[', ']']) : c ∉ t.text := by
  cases t <;> simp_all [text, not_mem_writeInt]

def opening : Token → List Char
  | star => ['*']
  | reg _ => ['r']
  | imm _ => ['#']
  | absolute _ => ['[']
  | indirect _ => ['[', 'r']
  | number _ => []

theorem takeWhile_text (t : Token) : t.text.takeWhile (!isNumeral ·) = t.opening := by
  have hint (n : Int) (s : List Char) : (writeInt n ++ s).takeWhile (!isNumeral ·) = [] := by
    obtain ⟨c, cs, h, hc⟩ := exists_writeInt_eq_cons n
    simp [h, hc]
  have hnumber (n : Int) : (writeInt n).takeWhile (!isNumeral ·) = [] := by simpa using hint n []
  have hopening : isNumeral '*' = false ∧ isNumeral 'r' = false ∧ isNumeral '#' = false ∧
      isNumeral '[' = false := by
    decide
  cases t <;> simp [text, opening, hint, hnumber, hopening]

theorem text_injective : Function.Injective text := by
  intro t t' h
  have hopening : t.opening = t'.opening := by rw [← takeWhile_text, h, takeWhile_text]
  cases t <;> cases t' <;> simp_all [text, opening, writeInt_injective.eq_iff]

end Token

/-- What a line begins with, if it is not the application of a rule and has tokens. -/
inductive Mnemonic
  | alu (opcode : Opcode)
  | load
  | store
  | loadConst
  | moveReg
  | content (action : ContentAction)
  | triple (action : TripleAction)
  | jumpIf (condition : Condition)
  | jump

def Mnemonic.name : Mnemonic → String
  | .alu opcode => Named.name opcode
  | .load => "LOAD"
  | .store => "STORE"
  | .loadConst => "LDC"
  | .moveReg => "MOVR"
  | .content action => Named.name action
  | .triple action => "DRS." ++ Named.name action
  | .jumpIf condition => condition.mnemonic
  | .jump => "JMP"

instance : Named Mnemonic where
  all := Named.all.map .alu ++ Named.all.map .content ++ Named.all.map .triple ++
    Named.all.map .jumpIf ++
    [.load, .store, .loadConst, .moveReg, .jump]
  name := Mnemonic.name

instance : LawfulNamed Mnemonic where
  ofName?_name
    | .alu opcode => by cases opcode <;> rfl
    | .content action => by cases action <;> rfl
    | .triple action => by cases action <;> rfl
    | .jumpIf condition => by cases condition <;> rfl
    | .load | .store | .loadConst | .moveReg | .jump => rfl

namespace Mnemonic

def text (m : Mnemonic) : List Char := m.name.toList

theorem text_injective : Function.Injective text := by
  intro m m' h
  have hname : Named.name m = Named.name m' := String.toList_inj.mp h
  have hread := LawfulNamed.ofName?_name m
  rw [hname, LawfulNamed.ofName?_name] at hread
  exact (Option.some.inj hread).symm

/-- No mnemonic is that of rules, and none ends before its last letter. -/
theorem text_letters (m : Mnemonic) :
    m.text ≠ ['R', 'U', 'L', 'E'] ∧ ' ' ∉ m.text ∧ '\n' ∉ m.text := by
  cases m with
  | alu opcode => cases opcode <;> decide
  | content action => cases action <;> decide
  | triple action => cases action <;> decide
  | jumpIf condition => cases condition <;> decide
  | load | store | loadConst | moveReg | jump => decide

end Mnemonic

inductive Line
  | halt
  | rule (name : List Char) (reg : Int)
  /-- Tokens, of which there is one at least, and an address behind an arrow, if there is one. -/
  | tokens (mnemonic : Mnemonic) (first : Token) (rest : List Token) (target : Option Token)

namespace Line

def listed (first : Token) (rest : List Token) : List Char :=
  [',', ' '].intercalate (first.text :: rest.map Token.text)

def arrow : Option Token → List Char
  | none => []
  | some place => ' ' :: '-' :: '>' :: ' ' :: place.text

def text : Line → List Char
  | halt => ['H', 'A', 'L', 'T']
  | rule name reg => 'R' :: 'U' :: 'L' :: 'E' :: ' ' :: name ++ ',' :: ' ' :: (Token.reg reg).text
  | tokens mnemonic first rest target => mnemonic.text ++ ' ' :: listed first rest ++ arrow target

theorem listed_inj {first first' : Token} {rest rest' : List Token}
    (h : listed first rest = listed first' rest') : first = first' ∧ rest = rest' := by
  have hcomma (t : Token) (ts : List Token) : ∀ z ∈ t.text :: ts.map Token.text, ',' ∉ z := by
    simp [Token.not_mem_text (c := ',') rfl (by decide)]
  obtain ⟨hfirst, hrest⟩ :=
    List.cons.inj (intercalate_inj (hcomma first rest) (hcomma first' rest') h)
  exact ⟨Token.text_injective hfirst, Token.text_injective.list_map hrest⟩

theorem not_mem_listed {c : Char} (hnum : isNumeral c = false)
    (hc : c ∉ ['*', 'r', '#', '[', ']', ',', ' ']) (first : Token) (rest : List Token) :
    c ∉ listed first rest := by
  have htoken (t : Token) : c ∉ t.text := Token.not_mem_text hnum (by simp_all)
  induction rest generalizing first with
  | nil => simpa [listed] using htoken first
  | cons t rest ih =>
    have hrest : c ∉ [',', ' '].intercalate (t.text :: rest.map Token.text) := ih t
    simp_all [listed, List.intercalate_cons_cons]

theorem listed_ne_nil (first : Token) (rest : List Token) : listed first rest ≠ [] := by
  cases rest <;> simp [listed, List.intercalate_cons_cons, first.text_ne_nil]

/-- The tip of the arrow shows that an address is behind it, and where. -/
theorem listed_arrow_inj {first first' : Token} {rest rest' : List Token}
    {target target' : Option Token}
    (h : listed first rest ++ arrow target = listed first' rest' ++ arrow target') :
    first = first' ∧ rest = rest' ∧ target = target' := by
  have htip (t : Token) (ts : List Token) : '>' ∉ listed t ts :=
    not_mem_listed rfl (by decide) t ts
  have hnone (t t' place : Token) (ts ts' : List Token) :
      listed t ts ≠ listed t' ts' ++ arrow (some place) := by
    intro h
    have hmem : '>' ∈ listed t' ts' ++ arrow (some place) := by simp [arrow]
    exact htip t ts (h ▸ hmem)
  cases target with
  | none =>
    rw [arrow, List.append_nil] at h
    cases target' with
    | none =>
      obtain ⟨rfl, rfl⟩ := listed_inj (by simpa [arrow] using h)
      exact ⟨rfl, rfl, rfl⟩
    | some place' => exact absurd h (hnone first first' place' rest rest')
  | some place =>
    cases target' with
    | none =>
      rw [arrow.eq_1, List.append_nil] at h
      exact absurd h.symm (hnone first' first place rest' rest)
    | some place' =>
      have hcut : (listed first rest ++ [' ', '-']) ++ '>' :: ' ' :: place.text =
          (listed first' rest' ++ [' ', '-']) ++ '>' :: ' ' :: place'.text := by
            simpa [arrow] using h
      have hbefore (t : Token) (ts : List Token) : '>' ∉ listed t ts ++ [' ', '-'] := by
        simp [htip]
      obtain ⟨hlisted, hplace⟩ := cut_first (hbefore first rest) (hbefore first' rest') hcut
      obtain ⟨rfl, rfl⟩ := listed_inj (List.append_cancel_right hlisted)
      obtain rfl := Token.text_injective (List.tail_eq_of_cons_eq hplace)
      exact ⟨rfl, rfl, rfl⟩

theorem text_injective : Function.Injective text := by
  -- All lines but one have a blank, and what is before the first one is the mnemonic.
  have hhalt (m : Mnemonic) (s : List Char) : ['H', 'A', 'L', 'T'] ≠ m.text ++ ' ' :: s := by
    intro h
    have hmem : ' ' ∈ ['H', 'A', 'L', 'T'] := by simp [h]
    simp at hmem
  have hrule (m : Mnemonic) (s s' : List Char) :
      ['R', 'U', 'L', 'E'] ++ ' ' :: s ≠ m.text ++ ' ' :: s' := fun h =>
    m.text_letters.1 (cut_first (by decide) m.text_letters.2.1 h).1.symm
  intro l l' h
  cases l with
  | halt =>
    cases l' with
    | halt => rfl
    | rule name' reg' => simp [text] at h
    | tokens m' first' rest' target' => exact absurd (by simpa [text] using h) (hhalt m' _)
  | rule name reg =>
    cases l' with
    | halt => simp [text] at h
    | rule name' reg' =>
      -- The name may hold anything; the number of the register has no other letter behind it.
      have hcut : (name ++ [',', ' ']) ++ 'r' :: Json.writeInt reg =
          (name' ++ [',', ' ']) ++ 'r' :: Json.writeInt reg' := by simpa [text, Token.text] using h
      obtain ⟨hname, hreg⟩ := cut_last (not_mem_writeInt rfl) (not_mem_writeInt rfl) hcut
      rw [List.append_cancel_right hname, writeInt_injective hreg]
    | tokens m' first' rest' target' => exact absurd (by simpa [text] using h) (hrule m' _ _)
  | tokens m first rest target =>
    cases l' with
    | halt => exact absurd (by simpa [text] using h.symm) (hhalt m _)
    | rule name' reg' => exact absurd (by simpa [text] using h.symm) (hrule m _ _)
    | tokens m' first' rest' target' =>
      have hcut : m.text ++ ' ' :: (listed first rest ++ arrow target) =
          m'.text ++ ' ' :: (listed first' rest' ++ arrow target') := by simpa [text] using h
      obtain ⟨hm, hfields⟩ := cut_first m.text_letters.2.1 m'.text_letters.2.1 hcut
      obtain rfl := Mnemonic.text_injective hm
      obtain ⟨rfl, rfl, rfl⟩ := listed_arrow_inj hfields
      rfl

end Line
end WordMachine
