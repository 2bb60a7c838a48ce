import WordMachine.Proofs.ListedLines

/-!
The listing of one instruction. A valid instruction has a line, whose text it is listed as if no
number in it has too many digits. Instructions of one line are the same, but for the widths of
words.
-/
namespace WordMachine

/-- The same argument, where of a word only the value counts. -/
inductive Field.Alike : Field Argument → Field Argument → Prop
  | refl (a : Field Argument) : Alike a a
  | imm {v v' : Word} (h : v.value = v'.value) : Alike (.known (.imm v)) (.known (.imm v'))

inductive Instruction.Alike : Instruction → Instruction → Prop
  | refl (i : Instruction) : Alike i i
  | alu {opcode : Field Opcode} {dest : Field Int} {a b a' b' : Field Argument} (ha : a.Alike a')
    (hb : b.Alike b') :
      Alike (.alu opcode dest a b) (.alu opcode dest a' b')
  | loadConst {dest : Field Int} {v v' : Word} (h : v.value = v'.value) :
      Alike (.loadConst dest (.known v)) (.loadConst dest (.known v'))
  | triple {action : Field TripleAction} {s r o s' r' o' : Field Argument} {count : Field Int}
    {out : Field Argument}
      (hs : s.Alike s') (hr : r.Alike r') (ho : o.Alike o') :
      Alike (.triple action s r o count out) (.triple action s' r' o' count out)

/-- The numbers of an argument that are listed: all but the width of a word. -/
def Argument.listed : Argument → List Int
  | .reg i | .absolute i | .indirect i => [i]
  | .imm v => [v.value]

def Instruction.listed : Instruction → List Int
  | .alu _ dest a b =>
    dest.numbers ([·]) ++ (a.numbers Argument.listed ++ b.numbers Argument.listed)
  | .load reg address | .store reg address => reg.numbers ([·]) ++ address.numbers Argument.listed
  | .loadConst dest value => dest.numbers ([·]) ++ value.numbers fun v => [(v.value : Int)]
  | .moveReg dest src => dest.numbers ([·]) ++ src.numbers ([·])
  | .content _ digest address length =>
    digest.numbers ([·]) ++ (address.numbers Argument.listed ++ length.numbers ([·]))
  | .triple _ s r o count out =>
    s.numbers Argument.listed ++ (r.numbers Argument.listed ++ (o.numbers Argument.listed ++
      (count.numbers ([·]) ++ out.numbers Argument.listed)))
  | .applyRule _ reg => reg.numbers ([·])
  | .jumpIf _ target | .jump target => target.numbers ([·])
  | .halt | .foreign _ => []

section Written
variable {numbers more : List Int} {s : String}

theorem written_bind_written (f : String → String) :
    (written numbers s >>= fun s => written more (f s)) = written (numbers ++ more) (f s) := by
  unfold written
  rw [List.all_append]
  cases numbers.all Word.isShort <;> rfl

theorem written_bind_pure (f : String → String) :
    (written numbers s >>= fun s => pure (f s)) = written numbers (f s) := by
  unfold written
  cases numbers.all Word.isShort <;> rfl

theorem written_congr {text : List Char} (hn : numbers = more) (hs : s.toList = text) :
    written numbers s = written more (String.ofList text) := by
  rw [hn, ← hs, String.ofList_toList]

theorem eq_of_written {text : String} (h : written numbers s = .ok text) : text = s := by
  unfold written at h
  split at h
  next => exact (Except.ok.inj h).symm
  next => cases h

theorem exists_written_iff :
    (∃ text, written numbers s = .ok text) ↔ ∀ n ∈ numbers, Word.isShort n = true := by
  unfold written
  cases h : numbers.all Word.isShort <;> simp_all

end Written

namespace Field

def operand? : Field Argument → Option Token
  | .known (.reg i) => some (.reg i)
  | .known (.imm v) => some (.imm v.value)
  | .null => some .star
  | _ => none

def address? : Field Argument → Option Token
  | .known (.absolute i) => some (.absolute i)
  | .known (.indirect i) => some (.indirect i)
  | _ => none

variable {a a' : Field Argument} {t : Token}

theorem operandText_eq (h : a.operand? = some t) :
    Argument.operandText a = written (a.numbers Argument.listed) (String.ofList t.text) := by
  unfold operand? at h
  split at h
  next i =>
    cases h
    have htext : String.ofList (Token.reg i).text = s!"r{i}" :=
      String.toList_inj.mp (by simp [Token.text, toString, toList_repr])
    simp only [Argument.operandText, demand, ok_bind, numbers, Argument.listed, htext]
  next v =>
    cases h
    have htext : String.ofList (Token.imm v.value).text = s!"#{v.value}" :=
      String.toList_inj.mp (by simp [Token.text, toString, writeInt_natCast])
    simp only [Argument.operandText, demand, ok_bind, numbers, Argument.listed, htext]
  next =>
    cases h
    rfl
  next => cases h

theorem addressText_eq (h : a.address? = some t) :
    Argument.addressText a = written (a.numbers Argument.listed) (String.ofList t.text) := by
  unfold address? at h
  split at h
  next i =>
    cases h
    have htext : String.ofList (Token.absolute i).text = s!"[{i}]" :=
      String.toList_inj.mp (by simp [Token.text, toString, toList_repr])
    simp only [Argument.addressText, demand, ok_bind, numbers, Argument.listed, htext]
  next i =>
    cases h
    have htext : String.ofList (Token.indirect i).text = s!"[r{i}]" :=
      String.toList_inj.mp (by simp [Token.text, toString, toList_repr])
    simp only [Argument.addressText, demand, ok_bind, numbers, Argument.listed, htext]
  next => cases h

theorem indexListing_known (n : Int) :
    (Field.known n).indexListing = written [n] (toString n) := by
  simp only [indexListing, demand, ok_bind, indexText, numbers]

theorem exists_operand (h : a = .null ∨ a.Operand) : ∃ t, a.operand? = some t := by
  rcases h with rfl | ⟨x, rfl, hx⟩
  · exact ⟨_, rfl⟩
  · cases x with
    | reg i => exact ⟨_, rfl⟩
    | imm v => exact ⟨_, rfl⟩
    | absolute i => cases hx
    | indirect i => cases hx

theorem exists_address (h : a.Address) : ∃ t, a.address? = some t := by
  obtain ⟨x, rfl, hx⟩ := h
  cases x with
  | reg i => cases hx
  | imm v => cases hx
  | absolute i => exact ⟨_, rfl⟩
  | indirect i => exact ⟨_, rfl⟩

theorem Alike.operandText_eq (h : a.Alike a') :
    Argument.operandText a = Argument.operandText a' := by
  cases h with
  | refl a => rfl
  | imm h => simp only [Argument.operandText, demand, ok_bind, h]

theorem Alike.isNull_eq (h : a.Alike a') : a.isNull = a'.isNull := by
  cases h <;> rfl

theorem isNull_known {α : Type} (x : α) : (Field.known x).isNull = false := rfl

theorem isNull_of_address (h : a.address? = some t) : a.isNull = false := by
  unfold address? at h
  split at h
  next => rfl
  next => rfl
  next => cases h

theorem alike_of_operand (h : a.operand? = some t) (h' : a'.operand? = some t) : a.Alike a' := by
  unfold operand? at h h'
  split at h
  next =>
    cases h
    split at h' <;> cases h'
    exact .refl _
  next v =>
    cases h
    split at h'
    next => cases h'
    next v' => exact .imm (Int.ofNat.inj (by simpa using h'.symm))
    next => cases h'
    next => cases h'
  next =>
    cases h
    split at h' <;> cases h'
    exact .refl _
  next => cases h

theorem eq_of_address (h : a.address? = some t) (h' : a'.address? = some t) : a = a' := by
  unfold address? at h h'
  split at h <;> cases h <;> split at h' <;> cases h'
  · rfl
  · rfl

end Field

namespace Instruction

inductive Shows : Instruction → Line → Prop
  | unary {opcode dest a t} (ha : Field.operand? a = some t) :
      Shows (.alu (.known opcode) (.known dest) a .null)
        (.tokens (.alu opcode) (.reg dest) [t] none)
  | binary {opcode dest a b t u} (ha : Field.operand? a = some t) (hb : Field.operand? b = some u)
      (hnull : b.isNull = false) :
      Shows (.alu (.known opcode) (.known dest) a b)
        (.tokens (.alu opcode) (.reg dest) [t, u] none)
  | load {dest address t} (h : Field.address? address = some t) :
      Shows (.load (.known dest) address) (.tokens .load (.reg dest) [t] none)
  | store {src address t} (h : Field.address? address = some t) :
      Shows (.store (.known src) address) (.tokens .store (.reg src) [t] none)
  | loadConst {dest} {v : Word} {n : Int} (h : v.value = n) :
      Shows (.loadConst (.known dest) (.known v)) (.tokens .loadConst (.reg dest) [.imm n] none)
  | moveReg {dest src} :
      Shows (.moveReg (.known dest) (.known src)) (.tokens .moveReg (.reg dest) [.reg src] none)
  | content {action digest address length t} (h : Field.address? address = some t) :
      Shows (.content (.known action) (.known digest) address (.known length))
        (.tokens (.content action) (.reg digest) [t, .reg length] none)
  | insert {action s r o t u v} (hs : Field.operand? s = some t) (hr : Field.operand? r = some u)
      (ho : Field.operand? o = some v) :
      Shows (.triple (.known action) s r o .null .null) (.tokens (.triple action) t [u, v] none)
  | count {action s r o count t u v} (hs : Field.operand? s = some t)
    (hr : Field.operand? r = some u)
      (ho : Field.operand? o = some v) :
      Shows (.triple (.known action) s r o (.known count) .null)
        (.tokens (.triple action) (.reg count) [t, u, v] none)
  | query {action s r o count out t u v place} (hs : Field.operand? s = some t)
    (hr : Field.operand? r = some u)
      (ho : Field.operand? o = some v) (hout : Field.address? out = some place) :
      Shows (.triple (.known action) s r o (.known count) out)
        (.tokens (.triple action) (.reg count) [t, u, v] (some place))
  | applyRule {rule : String} {reg name} (h : rule.toList = name) :
      Shows (.applyRule (.known rule) (.known reg)) (.rule name reg)
  | jumpIf {condition target} :
      Shows (.jumpIf (.known condition) (.known target))
        (.tokens (.jumpIf condition) (.number target) [] none)
  | jump {target} : Shows (.jump (.known target)) (.tokens .jump (.number target) [] none)
  | halt : Shows .halt .halt

variable {i j : Instruction} {l : Line}

theorem Valid.exists_shows (h : i.Valid) : ∃ l, i.Shows l := by
  obtain ⟨hdefect, hfields⟩ := h
  cases i with
  | alu opcode dest a b =>
    obtain ⟨⟨opcode, rfl⟩, ⟨dest, rfl⟩, ha, hb⟩ := hfields
    obtain ⟨t, ht⟩ := Field.exists_operand (.inr ha)
    rcases hb with rfl | hb
    · exact ⟨_, .unary ht⟩
    · obtain ⟨u, hu⟩ := Field.exists_operand (.inr hb)
      obtain ⟨x, rfl, -⟩ := hb
      exact ⟨_, .binary ht hu rfl⟩
  | load dest address =>
    obtain ⟨⟨dest, rfl⟩, haddress⟩ := hfields
    obtain ⟨t, ht⟩ := Field.exists_address haddress
    exact ⟨_, .load ht⟩
  | store src address =>
    obtain ⟨⟨src, rfl⟩, haddress⟩ := hfields
    obtain ⟨t, ht⟩ := Field.exists_address haddress
    exact ⟨_, .store ht⟩
  | loadConst dest value =>
    obtain ⟨⟨dest, rfl⟩, v, rfl⟩ := hfields
    exact ⟨_, .loadConst rfl⟩
  | moveReg dest src =>
    obtain ⟨⟨dest, rfl⟩, src, rfl⟩ := hfields
    exact ⟨_, .moveReg⟩
  | content action digest address length =>
    obtain ⟨⟨action, rfl⟩, ⟨digest, rfl⟩, haddress, length, rfl⟩ := hfields
    obtain ⟨t, ht⟩ := Field.exists_address haddress
    exact ⟨_, .content ht⟩
  | triple action s r o count out =>
    obtain ⟨⟨action, rfl⟩, hs, hr, ho, hcount, hout⟩ := hfields
    obtain ⟨t, ht⟩ := Field.exists_operand hs
    obtain ⟨u, hu⟩ := Field.exists_operand hr
    obtain ⟨v, hv⟩ := Field.exists_operand ho
    rcases hcount with rfl | ⟨count, rfl⟩
    · -- Only an insertion has no place to count in, and it has no place for what is found either.
      rcases hout with rfl | hout
      · exact ⟨_, .insert ht hu hv⟩
      · obtain ⟨x, rfl, -⟩ := hout
        cases action with
        | insert =>
          rw [defect?, tripleDefect] at hdefect
          split at hdefect <;> cases hdefect
        | queryExact => cases hdefect
        | queryByBasin => cases hdefect
    · rcases hout with rfl | hout
      · exact ⟨_, .count ht hu hv⟩
      · obtain ⟨place, hplace⟩ := Field.exists_address hout
        exact ⟨_, .query ht hu hv hplace⟩
  | applyRule rule reg =>
    obtain ⟨⟨rule, rfl⟩, reg, rfl⟩ := hfields
    exact ⟨_, .applyRule rfl⟩
  | jumpIf condition target =>
    obtain ⟨⟨condition, rfl⟩, target, rfl⟩ := hfields
    exact ⟨_, .jumpIf⟩
  | jump target =>
    obtain ⟨target, rfl⟩ := hfields
    exact ⟨_, .jump⟩
  | halt => exact ⟨_, .halt⟩
  | foreign kind => exact hfields.elim

theorem Shows.alike (hi : i.Shows l) (hj : j.Shows l) : i.Alike j := by
  cases hi with
  | unary ha =>
    cases hj with
    | unary ha' => exact .alu (Field.alike_of_operand ha ha') (.refl _)
  | binary ha hb =>
    cases hj with
    | binary ha' hb' => exact .alu (Field.alike_of_operand ha ha') (Field.alike_of_operand hb hb')
  | load h =>
    cases hj with
    | load h' => exact Field.eq_of_address h h' ▸ .refl _
  | store h =>
    cases hj with
    | store h' => exact Field.eq_of_address h h' ▸ .refl _
  | loadConst h =>
    cases hj with
    | loadConst h' => exact .loadConst (Int.ofNat.inj (h.trans h'.symm))
  | moveReg =>
    cases hj
    exact .refl _
  | content h =>
    cases hj with
    | content h' => exact Field.eq_of_address h h' ▸ .refl _
  | insert hs hr ho =>
    cases hj with
    | insert hs' hr' ho' =>
      exact .triple (Field.alike_of_operand hs hs') (Field.alike_of_operand hr hr')
        (Field.alike_of_operand ho ho')
  | count hs hr ho =>
    cases hj with
    | count hs' hr' ho' =>
      exact .triple (Field.alike_of_operand hs hs') (Field.alike_of_operand hr hr')
        (Field.alike_of_operand ho ho')
  | query hs hr ho hout =>
    cases hj with
    | query hs' hr' ho' hout' =>
      obtain rfl := Field.eq_of_address hout hout'
      exact .triple (Field.alike_of_operand hs hs') (Field.alike_of_operand hr hr')
        (Field.alike_of_operand ho ho')
  | applyRule h =>
    cases hj with
    | applyRule h' => exact String.toList_inj.mp (h.trans h'.symm) ▸ .refl _
  | jumpIf =>
    cases hj
    exact .refl _
  | jump =>
    cases hj
    exact .refl _
  | halt =>
    cases hj
    exact .refl _

attribute [local simp] Line.text Line.listed Line.arrow Token.text Mnemonic.text Mnemonic.name
    toList_repr
  writeInt_natCast Instruction.listed Field.numbers Scalar.numbers toString
    List.intercalate_cons_cons Field.indexText
  Field.nameText

/-- A valid instruction is listed as the text of its line. -/
theorem Shows.listing_eq (h : i.Shows l) :
    i.listing = written i.listed (String.ofList l.text) := by
  -- Each part of the listing is a written text; put together they are one, with the numbers of
  -- them all.
  cases h with
  | unary ha =>
    simp only [listing, Field.indexListing_known, Field.operandText_eq ha, Field.isNull,
      Field.mnemonic, if_true, pure_bind, ok_bind, written_bind_pure, written_bind_written]
    exact written_congr (by simp) (by simp)
  | binary ha hb hnull =>
    simp only [listing, Field.indexListing_known, Field.operandText_eq ha,
      Field.operandText_eq hb, hnull, Bool.false_eq_true, if_false, Field.mnemonic, pure_bind,
      ok_bind, written_bind_pure, written_bind_written]
    exact written_congr (by simp) (by simp)
  | load h =>
    simp only [listing, Field.indexListing_known, Field.addressText_eq h, written_bind_pure,
      written_bind_written]
    exact written_congr (by simp) (by simp)
  | store h =>
    simp only [listing, Field.indexListing_known, Field.addressText_eq h, written_bind_pure,
      written_bind_written]
    exact written_congr (by simp) (by simp)
  | loadConst h =>
    subst h
    simp only [listing, Field.indexListing_known, written_bind_written]
    exact written_congr (by simp) (by simp)
  | moveReg =>
    simp only [listing, Field.indexListing_known, written_bind_pure, written_bind_written]
    exact written_congr (by simp) (by simp)
  | content h =>
    simp only [listing, Field.indexListing_known, Field.addressText_eq h, Field.mnemonic, ok_bind,
      written_bind_pure, written_bind_written]
    exact written_congr (by simp) (by simp)
  | insert hs hr ho =>
    simp only [listing, Field.operandText_eq hs, Field.operandText_eq hr, Field.operandText_eq ho,
      Field.mnemonic, Field.isNull, if_true, pure_bind, ok_bind, written_bind_pure,
      written_bind_written]
    exact written_congr (by simp) (by simp)
  | count hs hr ho =>
    simp only [listing, Field.operandText_eq hs, Field.operandText_eq hr, Field.operandText_eq ho,
      Field.mnemonic, Field.isNull, if_true, Bool.false_eq_true, if_false, pure_bind, ok_bind,
      written_bind_pure, written_bind_written]
    exact written_congr (by simp) (by simp)
  | query hs hr ho hout =>
    simp only [listing, Field.operandText_eq hs, Field.operandText_eq hr, Field.operandText_eq ho,
      Field.addressText_eq hout, Field.mnemonic, Field.isNull_of_address hout, Field.isNull_known,
      Bool.false_eq_true, if_false, pure_bind, ok_bind, written_bind_pure, written_bind_written]
    exact written_congr (by simp) (by simp)
  | applyRule h =>
    subst h
    simp only [listing, Field.demand, Field.indexListing_known, ok_bind, written_bind_pure,
      written_bind_written]
    exact written_congr (by simp) (by simp)
  | jumpIf =>
    simp only [listing, Field.indexListing_known, written_bind_pure]
    exact written_congr (by simp) (by simp)
  | jump =>
    simp only [listing, Field.indexListing_known, written_bind_pure]
    exact written_congr (by simp) (by simp)
  | halt =>
    change written [] "HALT" = _
    exact written_congr (by simp) (by simp)

/-- The width of a word is not listed. -/
theorem Alike.listing_eq (h : i.Alike j) : i.listing = j.listing := by
  cases h with
  | refl i => rfl
  | alu ha hb => simp only [listing, ha.operandText_eq, hb.operandText_eq, hb.isNull_eq]
  | loadConst h => simp only [listing, h]
  | triple hs hr ho => simp only [listing, hs.operandText_eq, hr.operandText_eq, ho.operandText_eq]

theorem exists_listing_iff (hi : i.Valid) :
    (∃ text, i.listing = .ok text) ↔ ∀ n ∈ i.listed, Word.isShort n = true := by
  obtain ⟨l, hl⟩ := hi.exists_shows
  rw [hl.listing_eq]
  exact exists_written_iff

theorem Shows.text_eq {text : String} (h : i.Shows l) (htext : i.listing = .ok text) :
    text.toList = l.text := by
  rw [h.listing_eq] at htext
  rw [eq_of_written htext, String.toList_ofList]

theorem listing_eq_ok_iff {text : String} (hi : i.Valid) (hj : j.Valid)
    (htext : i.listing = .ok text) : j.listing = .ok text ↔ i.Alike j := by
  constructor
  · intro htext'
    obtain ⟨l, hl⟩ := hi.exists_shows
    obtain ⟨l', hl'⟩ := hj.exists_shows
    obtain rfl : l = l' := Line.text_injective ((hl.text_eq htext).symm.trans (hl'.text_eq htext'))
    exact hl.alike hl'
  · intro halike
    rw [← halike.listing_eq, htext]

end Instruction
end WordMachine
