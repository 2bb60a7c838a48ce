import WordMachine.Instruction.Encode
import WordMachine.Proofs.Content
import WordMachine.Proofs.JsonText

/-!
Data read back. A check accepts the valid values and no others, each of them in its written form;
with the reading of JSON texts it follows that valid programs come back from their texts. The
limits on widths and digits are the reader's.
-/
namespace WordMachine

open Checked

class LawfulNamed (α : Type) [Named α] : Prop where
  ofName?_name : ∀ a : α, Named.ofName? (Named.name a) = some a

instance : LawfulNamed Opcode := ⟨fun a => by cases a <;> rfl⟩
instance : LawfulNamed Condition := ⟨fun a => by cases a <;> rfl⟩
instance : LawfulNamed ContentAction := ⟨fun a => by cases a <;> rfl⟩
instance : LawfulNamed TripleAction := ⟨fun a => by cases a <;> rfl⟩

namespace Checked

variable {α β : Type}

theorem map_eq_ok {f : α → β} {x : Checked α} {b : β} :
    f <$> x = .ok b ↔ ∃ a, x = .ok a ∧ f a = b := by
  cases x with
  | ok a =>
    change Checked.ok (f a) = .ok b ↔ _
    simp
  | bad issues =>
    change Checked.bad issues = .ok b ↔ _
    simp

theorem seq_eq_ok {f : Checked (α → β)} {x : Checked α} {b : β} :
    f <*> x = .ok b ↔ ∃ g, f = .ok g ∧ ∃ a, x = .ok a ∧ g a = b := by
  cases f with
  | ok g =>
    cases x with
    | ok a =>
      change Checked.ok (g a) = .ok b ↔ _
      simp
    | bad issues =>
      change Checked.bad issues = .ok b ↔ _
      simp
  | bad issues =>
    cases x with
    | ok a =>
      change Checked.bad issues = .ok b ↔ _
      simp
    | bad more =>
      change Checked.bad (issues ++ more) = .ok b ↔ _
      simp

theorem map_ok {f : α → β} {x : Checked α} {a : α} (h : x = .ok a) : f <$> x = .ok (f a) :=
  map_eq_ok.mpr ⟨a, h, rfl⟩

theorem seq_ok {f : Checked (α → β)} {x : Checked α} {g : α → β} {a : α} (hf : f = .ok g)
    (hx : x = .ok a) :
    f <*> x = .ok (g a) := seq_eq_ok.mpr ⟨g, hf, a, hx, rfl⟩

theorem within_eq_ok {key : Key} {x : Checked α} {a : α} : x.within key = .ok a ↔ x = .ok a := by
  cases x <;> simp [within]

theorem andThen_eq_ok {x : Checked α} {check : α → Checked β} {b : β} :
    x.andThen check = .ok b ↔ ∃ a, x = .ok a ∧ check a = .ok b := by
  cases x <;> simp [andThen]

theorem required_eq_ok {fs : Fields} {name : String} {check : Json → Checked α} {a : α} :
    required fs name check = .ok a ↔ ∃ v, Json.get? fs name = some v ∧ check v = .ok a := by
  unfold required
  cases Json.get? fs name with
  | none => simp [fail, within]
  | some v => simp [within_eq_ok]

theorem orDefault_eq_ok {fs : Fields} {name : String} {default a : α} {check : Json → Checked α} :
    orDefault fs name default check = .ok a ↔
      (Json.get? fs name = none ∧ default = a) ∨
        ∃ v, Json.get? fs name = some v ∧ check v = .ok a := by
  unfold orDefault
  cases Json.get? fs name with
  | none => simp
  | some v => simp [within_eq_ok]

theorem exists_of_nullable {fs : Fields} {name : String} {check : Json → Checked α} {a : α}
    (h : nullable fs name check = .ok (some a)) : ∃ v, check v = .ok a := by
  unfold nullable at h
  split at h
  next => cases h
  next => cases h
  next v _ _ =>
    obtain ⟨b, hb, heq⟩ := map_eq_ok.mp h
    cases heq
    exact ⟨v, within_eq_ok.mp hb⟩

theorem nullable_of_check {fs : Fields} {name : String} {check : Json → Checked α} {v : Json}
    {a : α} (hget : Json.get? fs name = some v) (hv : v ≠ .null) (h : check v = .ok a) :
    nullable fs name check = .ok (some a) := by
  unfold nullable
  rw [hget]
  split
  next h => cases h
  next h =>
    cases h
    exact absurd rfl hv
  next w _ h =>
    cases h
    exact map_eq_ok.mpr ⟨a, within_eq_ok.mpr ‹_›, rfl⟩

/-- A record is accepted by the check that its tag calls for. -/
theorem exists_of_tagged {checks : String → Option (Fields → Checked α)} {j : Json} {a : α}
    (h : tagged checks j = .ok a) :
    ∃ fs tag check, checks tag = some check ∧ check fs = .ok a := by
  unfold tagged at h
  split at h
  next fs =>
    split at h
    next => cases h
    next tag _ =>
      split at h
      next check hcheck => exact ⟨fs, tag, check, hcheck, within_eq_ok.mp h⟩
      next => cases h
    next => cases h
  next => cases h

theorem tagged_of_check {checks : String → Option (Fields → Checked α)} {fs : Fields}
    {tag : String} {check : Fields → Checked α} {a : α}
    (htag : Json.get? fs "kind" = some (.str tag)) (hcheck : checks tag = some check)
    (h : check fs = .ok a) :
    tagged checks (.obj fs) = .ok a := by
  simp [tagged, htag, hcheck, h, within]

/-- A check admits the values with a property and no others, each of them in its written form. -/
structure Reads (check : Json → Checked α) (write : α → Json) (P : α → Prop) : Prop where
  sound : ∀ {j a}, check j = .ok a → P a
  complete : ∀ {a}, P a → check (write a) = .ok a

theorem Reads.congr {check : Json → Checked α} {write : α → Json} {P Q : α → Prop}
    (hr : Reads check write P) (h : ∀ a, P a ↔ Q a) : Reads check write Q where
  sound hj := (h _).mp (hr.sound hj)
  complete ha := hr.complete ((h _).mpr ha)

theorem integer_reads : Reads integer .int fun _ => True := ⟨fun _ => trivial, fun _ => rfl⟩

theorem string_reads : Reads string .str fun _ => True := ⟨fun _ => trivial, fun _ => rfl⟩

theorem named_reads [Named α] [LawfulNamed α] :
    Reads named (fun a : α => .str (Named.name a)) fun _ => True where
  sound _ := trivial
  complete _ := by simp [named, LawfulNamed.ofName?_name]

section Lists

variable {check : Json → Checked α} {write : α → Json} {P : α → Prop} (hr : Reads check write P)
include hr

theorem items_sound {start : ℕ} {vs : List Json} {as : List α}
    (h : items check start vs = .ok as) : ∀ a ∈ as, P a := by
  induction vs generalizing start as with
  | nil =>
    cases h
    simp
  | cons v vs ih =>
    simp only [items, seq_eq_ok, map_eq_ok, within_eq_ok] at h
    obtain ⟨_, ⟨a, ha, rfl⟩, as, has, rfl⟩ := h
    exact List.forall_mem_cons.mpr ⟨hr.sound ha, ih has⟩

theorem items_complete (start : ℕ) {as : List α} (h : ∀ a ∈ as, P a) :
    items check start (as.map write) = .ok as := by
  induction as generalizing start with
  | nil => rfl
  | cons a as ih =>
    obtain ⟨ha, has⟩ := List.forall_mem_cons.mp h
    exact seq_ok (map_ok (within_eq_ok.mpr (hr.complete ha))) (ih (start + 1) has)

theorem array_reads :
    Reads (array check) (fun as => .arr (as.map write)) fun as => ∀ a ∈ as, P a where
  sound := by
    intro j as h
    unfold array at h
    split at h
    next vs => exact items_sound hr h
    next => cases h
  complete h := items_complete hr 0 h

end Lists

end Checked

namespace Word

theorem ofInt_self (x : Word) : ofInt x.value x.width = .ok x := ofInt_eq_ok x.width_pos x.value_lt

theorem width_of_ofInt {value width : Int} {x : Word} (h : ofInt value width = .ok x) :
    (x.width : Int) = width := by
  unfold ofInt at h
  split at h
  next w =>
    split at h
    next v =>
      split at h
      · cases h
        rfl
      · cases h
    next => cases h
  next => cases h

variable {room : Option ℕ}

theorem fitsIn_of_ofIntChecked {value width : Int} {x : Word}
    (h : ofIntChecked room value width = .ok x) : fitsIn room x.width = true := by
  unfold ofIntChecked at h
  by_cases hfit : fitsIn room width = true
  · rw [if_pos hfit] at h
    cases hx : ofInt value width with
    | error e =>
      rw [hx] at h
      cases h
    | ok y =>
      rw [hx] at h
      cases h
      rwa [width_of_ofInt hx]
  · rw [if_neg hfit] at h
    cases h

theorem fitsIn_of_ofFields {fs : Fields} {x : Word} (h : ofFields room fs = .ok x) :
    fitsIn room x.width = true := by
  unfold ofFields at h
  rw [andThen_eq_ok] at h
  obtain ⟨⟨value, width⟩, -, h⟩ := h
  exact fitsIn_of_ofIntChecked h

theorem decode_reads (room : Option ℕ) :
    Reads (decode room) toJson fun x => fitsIn room x.width = true where
  sound := by
    intro j x h
    unfold decode at h
    split at h
    next => exact fitsIn_of_ofFields h
    next => exact fitsIn_of_ofFields h
    next => cases h
  complete := by
    intro x h
    change ofIntChecked room x.value x.width = .ok x
    unfold ofIntChecked
    rw [if_pos h, ofInt_self]

def AllFit (room : Option ℕ) (xs : List Word) : Prop := ∀ x ∈ xs, fitsIn room x.width = true

theorem allFit_none (xs : List Word) : AllFit none xs := fun _ _ => rfl

theorem allFit_append {xs ys : List Word} :
    AllFit room (xs ++ ys) ↔ AllFit room xs ∧ AllFit room ys := List.forall_mem_append

theorem allFit_usualRoom {xs : List Word} :
    AllFit usualRoom xs ↔ ∀ x ∈ xs, x.width ≤ storedLimit := by
  simp [AllFit, fitsIn, usualRoom]

end Word

open Word (AllFit)

namespace Argument

def words : Argument → List Word
  | .imm v => [v]
  | _ => []

variable {room : Option ℕ}

theorem form_sound {tag : String} {check : Fields → Checked Argument} {fs : Fields} {a : Argument}
    (hform : form room tag = some check) (h : check fs = .ok a) :
    (a.isOperand = true ↔ tag = "reg" ∨ tag = "imm") ∧ AllFit room a.words := by
  unfold form at hform
  split at hform
  next =>
    cases hform
    obtain ⟨n, -, rfl⟩ := map_eq_ok.mp h
    simp [isOperand, words, AllFit]
  next =>
    cases hform
    obtain ⟨x, hx, rfl⟩ := map_eq_ok.mp h
    obtain ⟨v, -, hv⟩ := required_eq_ok.mp hx
    simp [isOperand, words, AllFit, (Word.decode_reads room).sound hv]
  next =>
    cases hform
    obtain ⟨n, -, rfl⟩ := map_eq_ok.mp h
    simp [isOperand, words, AllFit]
  next =>
    cases hform
    obtain ⟨n, -, rfl⟩ := map_eq_ok.mp h
    simp [isOperand, words, AllFit]
  next => cases hform

theorem decodeOperand_reads (room : Option ℕ) :
    Reads (decodeOperand room) toJson fun a => a.isOperand = true ∧ AllFit room a.words where
  sound := by
    intro j a h
    obtain ⟨fs, tag, check, hchecks, hcheck⟩ := exists_of_tagged h
    by_cases htag : tag = "reg" ∨ tag = "imm"
    · rw [operandForm, if_pos htag] at hchecks
      obtain ⟨hkind, hfit⟩ := form_sound hchecks hcheck
      exact ⟨hkind.mpr htag, hfit⟩
    · rw [operandForm, if_neg htag] at hchecks
      cases hchecks
  complete := by
    rintro a ⟨ha, hfit⟩
    cases a with
    | reg n => exact tagged_of_check rfl rfl rfl
    | imm x =>
      have hx := (Word.decode_reads room).complete (hfit x List.mem_cons_self)
      exact tagged_of_check rfl rfl (map_ok (required_eq_ok.mpr ⟨x.toJson, rfl, hx⟩))
    | absolute n => cases ha
    | indirect n => cases ha

theorem decodeAddress_reads (room : Option ℕ) :
    Reads (decodeAddress room) toJson fun a => a.isAddress = true where
  sound := by
    intro j a h
    obtain ⟨fs, tag, check, hchecks, hcheck⟩ := exists_of_tagged h
    by_cases htag : tag = "absolute" ∨ tag = "indirect"
    · rw [addressForm, if_pos htag] at hchecks
      obtain ⟨hkind, -⟩ := form_sound hchecks hcheck
      rcases htag with rfl | rfl <;> simp_all [isAddress]
    · rw [addressForm, if_neg htag] at hchecks
      cases hchecks
  complete := by
    intro a ha
    cases a with
    | reg n => cases ha
    | imm x => cases ha
    | absolute n => exact tagged_of_check rfl rfl rfl
    | indirect n => exact tagged_of_check rfl rfl rfl

theorem words_of_isAddress {a : Argument} (h : a.isAddress = true) : a.words = [] := by
  cases a with
  | imm x => cases h
  | _ => rfl

theorem toJson_ne_null (a : Argument) : a.toJson ≠ .null := by cases a <;> simp [toJson]

end Argument

namespace Field

/-- The content is what the place calls for, and has a property. -/
def Holds {α : Type} (P : α → Prop) (f : Field α) : Prop := ∃ a, f = .known a ∧ P a

variable {α : Type} {P : α → Prop} {f : Field α} {room : Option ℕ} {a : Field Argument}

theorem Holds.known (h : f.Holds P) : f.Known := by
  obtain ⟨a, rfl, -⟩ := h
  exact ⟨a, rfl⟩

theorem Known.holds (h : f.Known) : f.Holds fun _ => True := by
  obtain ⟨a, rfl⟩ := h
  exact ⟨a, rfl, trivial⟩

def words : Field Argument → List Word
  | .known a => a.words
  | _ => []

theorem holds_operand :
    a.Holds (fun x => x.isOperand = true ∧ AllFit room x.words) ↔
      a.Operand ∧ AllFit room a.words := by
  constructor
  · rintro ⟨x, rfl, hx, hfit⟩
    exact ⟨⟨x, rfl, hx⟩, hfit⟩
  · rintro ⟨⟨x, rfl, hx⟩, hfit⟩
    exact ⟨x, rfl, hx, hfit⟩

theorem null_or_holds_operand :
    (a = .null ∨ a.Holds fun x => x.isOperand = true ∧ AllFit room x.words) ↔
      (a = .null ∨ a.Operand) ∧ AllFit room a.words := by
  rw [holds_operand]
  constructor
  · rintro (rfl | ⟨ha, hfit⟩)
    · exact ⟨Or.inl rfl, fun _ hx => nomatch hx⟩
    · exact ⟨Or.inr ha, hfit⟩
  · rintro ⟨ha, hfit⟩
    exact ha.imp_right fun ha => ⟨ha, hfit⟩

end Field

namespace Instruction

section Fields

variable {α : Type} {check : Json → Checked α} {write : α → Json} {P : α → Prop}
  (hr : Reads check write P) {fs : Fields} {name : String} {f : Field α}
include hr

theorem need_sound (h : need fs name check = .ok f) : f.Holds P := by
  obtain ⟨a, ha, rfl⟩ := map_eq_ok.mp h
  obtain ⟨v, -, hv⟩ := required_eq_ok.mp ha
  exact ⟨a, rfl, hr.sound hv⟩

theorem need_complete (h : f.Holds P) (hget : Json.get? fs name = some (f.toJson write)) :
    need fs name check = .ok f := by
  obtain ⟨a, rfl, ha⟩ := h
  exact map_ok (required_eq_ok.mpr ⟨write a, hget, hr.complete ha⟩)

theorem option_sound (h : option fs name check = .ok f) : f = .null ∨ f.Holds P := by
  obtain ⟨o, ho, rfl⟩ := map_eq_ok.mp h
  cases o with
  | none => exact Or.inl rfl
  | some a =>
    obtain ⟨v, hv⟩ := exists_of_nullable ho
    exact Or.inr ⟨a, rfl, hr.sound hv⟩

/-- What is left out is written as null. -/
theorem option_complete (hne : ∀ a, write a ≠ .null) (h : f = .null ∨ f.Holds P)
    (hget : Json.get? fs name = some (f.toJson write)) : option fs name check = .ok f := by
  rcases h with rfl | ⟨a, rfl, ha⟩
  · have hnull : nullable fs name check = .ok none := by
      unfold nullable
      rw [hget]
      rfl
    exact map_ok hnull
  · exact map_ok (nullable_of_check hget (hne a) (hr.complete ha))

end Fields

def words : Instruction → List Word
  | .alu _ _ a b => a.words ++ b.words
  | .loadConst _ (.known v) => [v]
  | .triple _ s r o _ _ => s.words ++ r.words ++ o.words
  | _ => []

variable {room : Option ℕ} {fs : Fields} {name : String}

theorem known_of_need {n : Field Int} (h : need fs name integer = .ok n) : n.Known :=
  (need_sound integer_reads h).known

theorem code_of_need {α : Type} [Named α] [LawfulNamed α] {f : Field α}
    (h : need fs name named = .ok f) : f.Known := (need_sound named_reads h).known

theorem operand_of_option {a : Field Argument}
    (h : option fs name (Argument.decodeOperand room) = .ok a) :
    (a = .null ∨ a.Operand) ∧ AllFit room a.words :=
  Field.null_or_holds_operand.mp (option_sound (Argument.decodeOperand_reads room) h)

theorem address_of_need {a : Field Argument}
    (h : need fs name (Argument.decodeAddress room) = .ok a) :
    a.Address := need_sound (Argument.decodeAddress_reads room) h

/-- The fields of an instruction, read by the check of its kind, each hold what their place calls
for. -/
theorem form_sound {tag : String} {check : Fields → Checked Instruction} {i : Instruction}
    (hform : form room tag = some check) (h : check fs = .ok i) :
    i.kind = tag ∧ (i.defect? = none → i.Valid) ∧ AllFit room i.words := by
  unfold form at hform
  split at hform
  next =>
    cases hform
    simp only [seq_eq_ok, map_eq_ok] at h
    obtain ⟨_, ⟨_, ⟨_, ⟨opcode, hopcode, rfl⟩, dest, hdest, rfl⟩, a, ha, rfl⟩, b, hb, rfl⟩ := h
    obtain ⟨ha, hafit⟩ :=
      Field.holds_operand.mp (need_sound (Argument.decodeOperand_reads room) ha)
    obtain ⟨hb, hbfit⟩ := operand_of_option hb
    exact ⟨rfl, fun hdefect => ⟨hdefect, code_of_need hopcode, known_of_need hdest, ha, hb⟩,
      Word.allFit_append.mpr ⟨hafit, hbfit⟩⟩
  next =>
    cases hform
    simp only [seq_eq_ok, map_eq_ok] at h
    obtain ⟨_, ⟨dest, hdest, rfl⟩, address, haddress, rfl⟩ := h
    exact ⟨rfl, fun hdefect => ⟨hdefect, known_of_need hdest, address_of_need haddress⟩, nofun⟩
  next =>
    cases hform
    simp only [seq_eq_ok, map_eq_ok] at h
    obtain ⟨_, ⟨src, hsrc, rfl⟩, address, haddress, rfl⟩ := h
    exact ⟨rfl, fun hdefect => ⟨hdefect, known_of_need hsrc, address_of_need haddress⟩, nofun⟩
  next =>
    cases hform
    simp only [seq_eq_ok, map_eq_ok] at h
    obtain ⟨_, ⟨dest, hdest, rfl⟩, value, hvalue, rfl⟩ := h
    obtain ⟨x, rfl, hx⟩ := need_sound (Word.decode_reads room) hvalue
    exact ⟨rfl, fun hdefect => ⟨hdefect, known_of_need hdest, x, rfl⟩,
      List.forall_mem_singleton.mpr hx⟩
  next =>
    cases hform
    simp only [seq_eq_ok, map_eq_ok] at h
    obtain ⟨_, ⟨dest, hdest, rfl⟩, src, hsrc, rfl⟩ := h
    exact ⟨rfl, fun hdefect => ⟨hdefect, known_of_need hdest, known_of_need hsrc⟩, nofun⟩
  next =>
    cases hform
    simp only [seq_eq_ok, map_eq_ok] at h
    obtain ⟨_, ⟨_, ⟨_, ⟨action, haction, rfl⟩, digest, hdigest, rfl⟩, address, haddress, rfl⟩,
      length, hlength, rfl⟩ := h
    exact ⟨rfl, fun hdefect => ⟨hdefect, code_of_need haction, known_of_need hdigest,
      address_of_need haddress, known_of_need hlength⟩, nofun⟩
  next =>
    cases hform
    simp only [seq_eq_ok, map_eq_ok] at h
    obtain ⟨_,
      ⟨_, ⟨_, ⟨_, ⟨_, ⟨action, haction, rfl⟩, subject, hsubject, rfl⟩, relation, hrelation, rfl⟩,
      object, hobject, rfl⟩, count, hcount, rfl⟩, out, hout, rfl⟩ := h
    obtain ⟨hsubject, hsfit⟩ := operand_of_option hsubject
    obtain ⟨hrelation, hrfit⟩ := operand_of_option hrelation
    obtain ⟨hobject, hofit⟩ := operand_of_option hobject
    have hcount := (option_sound integer_reads hcount).imp_right Field.Holds.known
    have hout := option_sound (Argument.decodeAddress_reads room) hout
    exact ⟨rfl, fun hdefect => ⟨hdefect, code_of_need haction, hsubject, hrelation, hobject,
      hcount, hout⟩, Word.allFit_append.mpr ⟨Word.allFit_append.mpr ⟨hsfit, hrfit⟩, hofit⟩⟩
  next =>
    cases hform
    simp only [seq_eq_ok, map_eq_ok] at h
    obtain ⟨_, ⟨rule, hrule, rfl⟩, reg, hreg, rfl⟩ := h
    exact ⟨rfl, fun hdefect => ⟨hdefect, (need_sound string_reads hrule).known,
      known_of_need hreg⟩, nofun⟩
  next =>
    cases hform
    simp only [seq_eq_ok, map_eq_ok] at h
    obtain ⟨_, ⟨condition, hcondition, rfl⟩, target, htarget, rfl⟩ := h
    exact ⟨rfl, fun hdefect => ⟨hdefect, code_of_need hcondition, known_of_need htarget⟩, nofun⟩
  next =>
    cases hform
    simp only [map_eq_ok] at h
    obtain ⟨target, htarget, rfl⟩ := h
    exact ⟨rfl, fun hdefect => ⟨hdefect, known_of_need htarget⟩, nofun⟩
  next =>
    cases hform
    cases h
    exact ⟨rfl, fun hdefect => ⟨hdefect, trivial⟩, nofun⟩
  next => cases hform

theorem need_index {n : Field Int} (h : n.Known) (hget : Json.get? fs name = some n.indexJson) :
    need fs name integer = .ok n := need_complete integer_reads h.holds hget

theorem need_code {α : Type} [Named α] [LawfulNamed α] {f : Field α} (h : f.Known)
    (hget : Json.get? fs name = some f.codeJson) : need fs name named = .ok f :=
  need_complete named_reads h.holds hget

theorem need_address {a : Field Argument} (h : a.Address)
    (hget : Json.get? fs name = some a.argumentJson) :
    need fs name (Argument.decodeAddress room) = .ok a :=
  need_complete (Argument.decodeAddress_reads room) h hget

theorem option_operand {a : Field Argument} (h : a = .null ∨ a.Operand)
    (hfit : AllFit room a.words) (hget : Json.get? fs name = some a.argumentJson) :
    option fs name (Argument.decodeOperand room) = .ok a :=
  option_complete (Argument.decodeOperand_reads room) Argument.toJson_ne_null
    (Field.null_or_holds_operand.mpr ⟨h, hfit⟩) hget

/-- The fields of a valid instruction are read from where they are written. -/
theorem form_complete {i : Instruction} (hv : i.Valid) (hfit : AllFit room i.words) :
    ∃ check, form room i.kind = some check ∧
      check (("kind", .str i.kind) :: i.fields) = .ok i := by
  replace hv := hv.2
  cases i with
  | alu opcode dest a b =>
    obtain ⟨hopcode, hdest, ha, hb⟩ := hv
    obtain ⟨hafit, hbfit⟩ := Word.allFit_append.mp hfit
    have ha := Field.holds_operand.mpr ⟨ha, hafit⟩
    exact ⟨_, rfl, seq_ok (seq_ok (seq_ok
      (map_ok (need_code hopcode rfl))
      (need_index hdest rfl))
      (need_complete (Argument.decodeOperand_reads room) ha rfl))
      (option_operand hb hbfit rfl)⟩
  | load dest address =>
    exact ⟨_, rfl, seq_ok (map_ok (need_index hv.1 rfl)) (need_address hv.2 rfl)⟩
  | store src address =>
    exact ⟨_, rfl, seq_ok (map_ok (need_index hv.1 rfl)) (need_address hv.2 rfl)⟩
  | loadConst dest value =>
    obtain ⟨hdest, x, rfl⟩ := hv
    have hx : (Field.known x).Holds fun x => Word.fitsIn room x.width = true :=
      ⟨x, rfl, hfit x List.mem_cons_self⟩
    exact ⟨_, rfl, seq_ok (map_ok (need_index hdest rfl))
      (need_complete (Word.decode_reads room) hx rfl)⟩
  | moveReg dest src =>
    exact ⟨_, rfl, seq_ok (map_ok (need_index hv.1 rfl)) (need_index hv.2 rfl)⟩
  | content action digest address length =>
    obtain ⟨haction, hdigest, haddress, hlength⟩ := hv
    exact ⟨_, rfl, seq_ok (seq_ok (seq_ok
      (map_ok (need_code haction rfl))
      (need_index hdigest rfl))
      (need_address haddress rfl))
      (need_index hlength rfl)⟩
  | triple action subject relation object count out =>
    obtain ⟨haction, hsubject, hrelation, hobject, hcount, hout⟩ := hv
    obtain ⟨hfit, hofit⟩ := Word.allFit_append.mp hfit
    obtain ⟨hsfit, hrfit⟩ := Word.allFit_append.mp hfit
    exact ⟨_, rfl, seq_ok (seq_ok (seq_ok (seq_ok (seq_ok
      (map_ok (need_code haction rfl))
      (option_operand hsubject hsfit rfl))
      (option_operand hrelation hrfit rfl))
      (option_operand hobject hofit rfl))
      (option_complete integer_reads (by simp) (hcount.imp_right Field.Known.holds) rfl))
      (option_complete (Argument.decodeAddress_reads room) Argument.toJson_ne_null hout rfl)⟩
  | applyRule rule reg =>
    exact ⟨_, rfl, seq_ok (map_ok (need_complete string_reads hv.1.holds rfl))
      (need_index hv.2 rfl)⟩
  | jumpIf condition target =>
    exact ⟨_, rfl, seq_ok (map_ok (need_code hv.1 rfl)) (need_index hv.2 rfl)⟩
  | jump target => exact ⟨_, rfl, map_ok (need_index hv rfl)⟩
  | halt => exact ⟨_, rfl, rfl⟩
  | foreign kind => exact hv.elim

theorem get?_kind (i : Instruction) :
    Json.get? (("kind", .str i.kind) :: i.fields) "kind" = some (.str i.kind) := by
  cases i <;> rfl

theorem decode_reads (room : Option ℕ) :
    Reads (decode room) toJson fun i => i.Valid ∧ AllFit room i.words where
  sound := by
    intro j i h
    obtain ⟨fs, tag, check, hchecks, hcheck⟩ := exists_of_tagged h
    obtain ⟨check, hform, rfl⟩ := Option.map_eq_some_iff.mp hchecks
    obtain ⟨i', hi, hshape⟩ := andThen_eq_ok.mp hcheck
    obtain ⟨-, hvalid, hfit⟩ := form_sound hform hi
    unfold shaped at hshape
    cases hdefect : i'.defect? with
    | some d =>
      rw [hdefect] at hshape
      cases hshape
    | none =>
      rw [hdefect] at hshape
      cases hshape
      exact ⟨hvalid hdefect, hfit⟩
  complete := by
    rintro i ⟨hv, hfit⟩
    obtain ⟨check, hform, hcheck⟩ := form_complete hv hfit
    have hshape : shaped i = .ok i := by
      unfold shaped
      rw [hv.1]
    have hchecks : (form room i.kind).map (fun check fields => (check fields).andThen shaped) =
        some fun fields => (check fields).andThen shaped := by rw [hform, Option.map_some]
    exact tagged_of_check (get?_kind i) hchecks (andThen_eq_ok.mpr ⟨i, hcheck, hshape⟩)

end Instruction

namespace Program

def words (p : Program) : List Word := p.ops.toList.flatMap Instruction.words

theorem valid_and_allFit {name : String} {ops : List Instruction} {room : Option ℕ} :
    (∀ i ∈ ops, i.Valid ∧ AllFit room i.words) ↔
      Valid ⟨name, ops.toArray⟩ ∧ AllFit room (words ⟨name, ops.toArray⟩) := by
  simp only [Valid, words, AllFit, List.mem_toArray, List.mem_flatMap]
  grind

theorem decode_reads (room : Option ℕ) :
    Reads (decode room) toJson fun p => p.Valid ∧ AllFit room p.words where
  sound := by
    intro j p h
    unfold decode at h
    split at h
    next fs =>
      simp only [seq_eq_ok, map_eq_ok] at h
      obtain ⟨_, ⟨name, -, rfl⟩, ops, hops, rfl⟩ := h
      refine valid_and_allFit.mp ?_
      rcases orDefault_eq_ok.mp hops with ⟨-, rfl⟩ | ⟨v, -, hv⟩
      · simp
      · exact (array_reads (Instruction.decode_reads room)).sound hv
    next => cases h
  complete := by
    rintro ⟨name, ⟨ops⟩⟩ h
    have hops := (array_reads (Instruction.decode_reads room)).complete (valid_and_allFit.mpr h)
    exact seq_ok (map_ok rfl) (orDefault_eq_ok.mpr (Or.inr ⟨_, rfl, hops⟩))

end Program

section Depth

open Json

variable {limits : Limits} {level : ℕ} (hany : ∀ count, limits.allowsDigits count = true)
include hany

theorem Word.fits_toJson (x : Word) (h : level + 1 ≤ limits.depth) :
    x.toJson.fits limits level = true := by
  simp [toJson, fits, fitsFields, hany]
  omega

theorem Argument.fits_toJson (a : Argument) (h : level + 2 ≤ limits.depth) :
    a.toJson.fits limits level = true := by
  cases a with
  | imm v =>
    have hv := v.fits_toJson hany (show level + 1 + 1 ≤ limits.depth by omega)
    simp [toJson, fits, fitsFields, hv]
    omega
  | _ =>
    simp [toJson, fits, fitsFields, hany]
    omega

theorem Field.fits_toJson {α : Type} {write : α → Json} (f : Field α) (h : level ≤ limits.depth)
    (hwrite : ∀ a, (write a).fits limits level = true) :
    (f.toJson write).fits limits level = true := by
  cases f with
  | known a => exact hwrite a
  | other v => cases v <;> simpa [Field.toJson, Scalar.toJson, fits, hany] using h
  | absent kind name => simpa [Field.toJson, fits] using h

theorem Instruction.fits_toJson (i : Instruction) (h : level + 3 ≤ limits.depth) :
    i.toJson.fits limits level = true := by
  have leaf : level + 1 ≤ limits.depth := by omega
  have index (f : Field Int) : f.indexJson.fits limits (level + 1) = true :=
    f.fits_toJson hany leaf fun n => by simpa [fits, hany] using leaf
  have name (f : Field String) : f.nameJson.fits limits (level + 1) = true :=
    f.fits_toJson hany leaf fun s => by simpa [fits] using leaf
  have code {α : Type} [Named α] (f : Field α) : f.codeJson.fits limits (level + 1) = true :=
    f.fits_toJson hany leaf fun s => by simpa [fits] using leaf
  have argument (f : Field Argument) : f.argumentJson.fits limits (level + 1) = true :=
    f.fits_toJson hany leaf fun a => a.fits_toJson hany (by omega)
  have word (f : Field Word) : (f.toJson Word.toJson).fits limits (level + 1) = true :=
    f.fits_toJson hany leaf fun x => x.fits_toJson hany (by omega)
  have hfields : fitsFields limits (level + 1) i.fields = true := by
    cases i <;> simp [fields, fitsFields, index, name, code, argument, word]
  simp [toJson, fits, fitsFields, hfields]
  omega

theorem Program.fits_toJson (p : Program) (h : level + 5 ≤ limits.depth) :
    p.toJson.fits limits level = true := by
  have hops (ops : List Instruction) :
      fitsItems limits (level + 1 + 1) (ops.map Instruction.toJson) = true := by
    induction ops with
    | nil => rfl
    | cons i ops ih =>
      simp [fitsItems, ih, i.fits_toJson hany (show level + 1 + 1 + 3 ≤ limits.depth by omega)]
  simp [toJson, fits, fitsFields, hops]
  omega

end Depth

section Text

variable {α : Type} {valid : α → Prop} {words : α → List Word}
  {check : Option ℕ → Json → Checked α} {write : α → Json}

theorem Checked.textWithin_compress {limits : Json.Limits} {check : Json → Checked α} {j : Json}
    {a : α} :
    textWithin limits check j.compress = .ok a ↔ j.fits limits 0 = true ∧ check j = .ok a := by
  unfold textWithin
  rw [Json.parse_compress]
  by_cases hfits : j.fits limits 0 = true
  · cases h : check j <;> simp [hfits, h]
  · simp [hfits, fail]

/-- The valid values are those that some data stands for. Each comes back from its text and is
written the same way again, if words may have any width and numbers any number of digits. Within
the usual limits it comes back exactly if it keeps to them. -/
def RoundTrips (valid : α → Prop) (words : α → List Word) (check : Option ℕ → Json → Checked α)
    (write : α → Json) : Prop :=
  ∀ a, (valid a ↔ ∃ j, check none j = .ok a) ∧
    (valid a →
      (∃ b, textWithin ⟨Json.Limits.usualDepth, none⟩ (check none) (write a).compress = .ok b ∧
        b = a ∧ (write b).compress = (write a).compress) ∧
      (text (check Word.usualRoom) (write a).compress = .ok a ↔
        (write a).fits .usual 0 = true ∧ ∀ x ∈ words a, x.width ≤ Word.storedLimit))

theorem Checked.Reads.roundTrips
    (hr : ∀ room, Reads (check room) write fun a => valid a ∧ AllFit room (words a))
    (hfits : ∀ a, (write a).fits ⟨Json.Limits.usualDepth, none⟩ 0 = true) :
    RoundTrips valid words check write := by
  have hread {a : α} (hv : valid a) : check none (write a) = .ok a :=
    (hr none).complete ⟨hv, Word.allFit_none _⟩
  intro a
  refine ⟨⟨fun hv => ⟨write a, hread hv⟩, fun ⟨j, hj⟩ => ((hr none).sound hj).1⟩,
    fun hv => ⟨?_, ?_⟩⟩
  · exact ⟨a, textWithin_compress.mpr ⟨hfits a, hread hv⟩, rfl, rfl⟩
  · rw [← Word.allFit_usualRoom]
    refine textWithin_compress.trans (and_congr_right fun _ => ⟨fun h => ?_, fun hfit => ?_⟩)
    · exact ((hr Word.usualRoom).sound h).2
    · exact (hr Word.usualRoom).complete ⟨hv, hfit⟩

end Text

/-- Programs, and their parts, come back from their texts. -/
theorem text_roundTrips :
    RoundTrips Program.Valid Program.words Program.decode Program.toJson ∧
      RoundTrips Instruction.Valid Instruction.words Instruction.decode Instruction.toJson ∧
      RoundTrips (fun a => a.isOperand = true) Argument.words Argument.decodeOperand
        Argument.toJson ∧
      RoundTrips (fun a => a.isAddress = true) Argument.words Argument.decodeAddress
        Argument.toJson ∧
      RoundTrips (fun _ => True) (fun x => [x]) Word.decode Word.toJson := by
  refine ⟨?_, ?_, ?_, ?_, ?_⟩
  · exact Reads.roundTrips Program.decode_reads fun p => p.fits_toJson (fun _ => rfl) (by decide)
  · exact Reads.roundTrips Instruction.decode_reads fun i =>
      i.fits_toJson (fun _ => rfl) (by decide)
  · exact Reads.roundTrips Argument.decodeOperand_reads fun a =>
      a.fits_toJson (fun _ => rfl) (by decide)
  · refine Reads.roundTrips (fun room => ?_) fun a => a.fits_toJson (fun _ => rfl) (by decide)
    refine (Argument.decodeAddress_reads room).congr fun a => ⟨fun ha => ⟨ha, ?_⟩, And.left⟩
    rw [Argument.words_of_isAddress ha]
    exact fun _ hx => nomatch hx
  · refine Reads.roundTrips (fun room => ?_) fun x => x.fits_toJson (fun _ => rfl) (by decide)
    exact (Word.decode_reads room).congr fun x => by simp [AllFit]

/-- Programs with a name outside of ASCII and a rule with a quote and a line break in its name,
which use all forms of arguments, some of them optional. The constant of one has more bits than
there is room for. -/
theorem text_roundTrips_example :
    let wide : Word := ⟨0x10000000000, 0, by decide, Word.card_pos _⟩
    let five : Word := ⟨4, 5, by decide, by decide⟩
    let p (constant : Word) : Program := ⟨"π", #[.loadConst (.known 0) (.known constant),
      .alu (.known .add) (.known 1) (.known (.reg (-7))) (.known (.imm five)),
      .alu (.known .not) (.known 0) (.known (.reg 1)) .null,
      .store (.known 1) (.known (.indirect 0)),
      .triple (.known .queryByBasin) (.known (.imm five)) .null (.known (.reg 2)) (.known 3)
        (.known (.absolute 12)),
      .applyRule (.known "a\"\nβ") (.known 1)]⟩
    (∀ constant, (p constant).Valid) ∧
      textWithin ⟨Json.Limits.usualDepth, none⟩ (Program.decode none) (p wide).toJson.compress =
        .ok (p wide) ∧
      text (Program.decode Word.usualRoom) (p wide).toJson.compress ≠ .ok (p wide) ∧
      text (Program.decode Word.usualRoom) (p five).toJson.compress = .ok (p five) := by
  intro wide five p
  have hvalid (constant : Word) : (p constant).Valid := by
    intro i hi
    simp only [p, List.mem_toArray, List.mem_cons, List.not_mem_nil, or_false] at hi
    rcases hi with rfl | rfl | rfl | rfl | rfl | rfl
    · exact ⟨rfl, ⟨0, rfl⟩, constant, rfl⟩
    · exact ⟨rfl, ⟨_, rfl⟩, ⟨1, rfl⟩, ⟨_, rfl, rfl⟩, Or.inr ⟨_, rfl, rfl⟩⟩
    · exact ⟨rfl, ⟨_, rfl⟩, ⟨0, rfl⟩, ⟨_, rfl, rfl⟩, Or.inl rfl⟩
    · exact ⟨rfl, ⟨1, rfl⟩, ⟨_, rfl, rfl⟩⟩
    · exact ⟨rfl, ⟨_, rfl⟩, Or.inr ⟨_, rfl, rfl⟩, Or.inl rfl, Or.inr ⟨_, rfl, rfl⟩,
        Or.inr ⟨3, rfl⟩, Or.inr ⟨_, rfl, rfl⟩⟩
    · exact ⟨rfl, ⟨_, rfl⟩, 1, rfl⟩
  obtain ⟨⟨b, hread, rfl, -⟩, hwide⟩ := (text_roundTrips.1 (p wide)).2 (hvalid wide)
  obtain ⟨-, hnarrow⟩ := (text_roundTrips.1 (p five)).2 (hvalid five)
  refine ⟨hvalid, hread, fun h => ?_, hnarrow.mpr ⟨by with_unfolding_all rfl, ?_⟩⟩
  · have hle := (hwide.mp h).2 wide (by simp [p, Program.words, Instruction.words])
    exact absurd hle (by decide)
  · simp [p, Program.words, Instruction.words, Field.words, Argument.words, five, Word.storedLimit]

end WordMachine
