import Mathlib.Data.List.Forall2
import Mathlib.Data.List.Induction
import WordMachine.Proofs.ListedInstructions

/-!
The listing is faithful: it tells the name of a program and all of its instructions, but for the
widths of words. Names may hold line breaks and imitate a heading, so the text is read from its
end, where the lines of instructions are.
-/
namespace WordMachine

namespace Line

def IsWhole : Line → Prop
  | rule name _ => '\n' ∉ name
  | _ => True

theorem newline_not_mem_text {l : Line} (h : l.IsWhole) : '\n' ∉ l.text := by
  have htoken (t : Token) : '\n' ∉ t.text := Token.not_mem_text rfl (by decide)
  cases l with
  | halt => decide
  | rule name reg =>
    have hname : '\n' ∉ name := h
    simp [text, hname, htoken]
  | tokens m first rest target =>
    have hlisted : '\n' ∉ listed first rest := not_mem_listed rfl (by decide) first rest
    cases target <;> simp [text, arrow, m.text_letters, hlisted, htoken]

/-- No line of an instruction ends like a heading. -/
theorem getLast?_text (l : Line) : ∃ c, l.text.getLast? = some c ∧ c ≠ ')' ∧ c ≠ '\n' := by
  have hend {u v : List Char} (hne : v ≠ []) (hclose : ')' ∉ v) (hnewline : '\n' ∉ v) :
      ∃ c, (u ++ v).getLast? = some c ∧ c ≠ ')' ∧ c ≠ '\n' := by
    have hmem := List.getLast_mem hne
    refine ⟨v.getLast hne, by simp [List.getLast?_append, List.getLast?_eq_some_getLast hne], ?_,
      ?_⟩
    · exact fun h => hclose (h ▸ hmem)
    · exact fun h => hnewline (h ▸ hmem)
  have htoken (t : Token) : t.text ≠ [] ∧ ')' ∉ t.text ∧ '\n' ∉ t.text :=
    ⟨t.text_ne_nil, Token.not_mem_text rfl (by decide), Token.not_mem_text rfl (by decide)⟩
  cases l with
  | halt => exact ⟨'T', rfl, by decide, by decide⟩
  | rule name reg =>
    obtain ⟨hne, hclose, hnewline⟩ := htoken (.reg reg)
    obtain ⟨c, hc, hother⟩ :=
      hend (u := ['R', 'U', 'L', 'E', ' '] ++ name ++ [',', ' ']) hne hclose hnewline
    exact ⟨c, by simpa [text] using hc, hother⟩
  | tokens m first rest target =>
    cases target with
    | none =>
      obtain ⟨c, hc, hother⟩ := hend (u := m.text ++ [' ']) (listed_ne_nil first rest)
        (not_mem_listed rfl (by decide) first rest) (not_mem_listed rfl (by decide) first rest)
      exact ⟨c, by simpa [text, arrow] using hc, hother⟩
    | some place =>
      obtain ⟨hne, hclose, hnewline⟩ := htoken place
      obtain ⟨c, hc, hother⟩ :=
        hend (u := m.text ++ ' ' :: listed first rest ++ [' ', '-', '>', ' ']) hne hclose hnewline
      exact ⟨c, by simpa [text, arrow] using hc, hother⟩

end Line

theorem Instruction.Shows.isWhole {i : Instruction} {l : Line} (h : i.Shows l)
    (hi : ∀ rule reg, i = .applyRule (.known rule) reg → '\n' ∉ rule.toList) : l.IsWhole := by
  cases h with
  | applyRule h => exact h ▸ hi _ _ rfl
  | _ => trivial

section Blocks
variable {title title' : List Char} {us vs : List (List Char)}

def block (us : List (List Char)) : List Char := us.flatMap ('\n' :: ·)

theorem block_concat (us : List (List Char)) (u : List Char) :
    block (us ++ [u]) = block us ++ '\n' :: u := by
  simp [block]

/-- Line breaks can be put before the lines in place of after them. -/
theorem newline_flatMap (us : List (List Char)) :
    '\n' :: us.flatMap (· ++ ['\n']) = block us ++ ['\n'] := by
  induction us with
  | nil => rfl
  | cons u us ih => simpa [block] using ih

/-- What is before the last line break and after it. The title may hold breaks, but the lines do
not end like it. -/
theorem append_block_inj (htitle : title.getLast? = some ')')
    (htitle' : title'.getLast? = some ')') (hus : ∀ u ∈ us, '\n' ∉ u ∧ ∃ c, u.getLast? = some c ∧
      c ≠ ')')
    (hvs : ∀ v ∈ vs, '\n' ∉ v ∧ ∃ c, v.getLast? = some c ∧ c ≠ ')')
    (h : title ++ block us = title' ++ block vs) : title = title' ∧ us = vs := by
  have hend {title us u} (hu : ∃ c, List.getLast? u = some c ∧ c ≠ ')') :
      (title ++ block (us ++ [u])).getLast? ≠ some ')' := by
    obtain ⟨c, hc, hne⟩ := hu
    simpa [block_concat, List.getLast?_append, List.getLast?_cons, hc] using hne
  induction us using List.reverseRecOn generalizing vs with
  | nil =>
    cases vs using List.reverseRecOn with
    | nil => exact ⟨by simpa [block] using h, rfl⟩
    | append_singleton vs v =>
      rw [block, List.flatMap_nil, List.append_nil] at h
      exact absurd (h ▸ htitle) (hend (hvs v (by simp)).2)
  | append_singleton us u ih =>
    cases vs using List.reverseRecOn with
    | nil =>
      rw [block.eq_1 [], List.flatMap_nil, List.append_nil] at h
      exact absurd (h ▸ htitle') (hend (hus u (by simp)).2)
    | append_singleton vs v =>
      rw [block_concat, block_concat, ← List.append_assoc, ← List.append_assoc] at h
      obtain ⟨hbefore, rfl⟩ := cut_last (hus u (by simp)).1 (hvs v (by simp)).1 h
      obtain ⟨rfl, rfl⟩ :=
        ih (fun x hx => hus x (by simp [hx])) (fun x hx => hvs x (by simp [hx])) hbefore
      exact ⟨rfl, rfl⟩

end Blocks

namespace Program

def numbered (addresses : Bool) : ℕ → List Line → List (List Char)
  | _, [] => []
  | start, l :: ls =>
    ((if addresses then (lineNumber start).toList ++ [' ', ' '] else []) ++ l.text) ::
      numbered addresses (start + 1) ls

variable {addresses : Bool} {start : ℕ} {ls ls' : List Line} {ops ops' : List Instruction}

theorem numbered_inj (h : numbered addresses start ls = numbered addresses start ls') :
    ls = ls' := by
  induction ls generalizing start ls' with
  | nil =>
    cases ls' with
    | nil => rfl
    | cons l' ls' => cases h
  | cons l ls ih =>
    cases ls' with
    | nil => cases h
    | cons l' ls' =>
      obtain ⟨hl, hls⟩ := List.cons.inj h
      rw [Line.text_injective (List.append_cancel_left hl), ih hls]

theorem newline_not_mem_lineNumber (k : ℕ) : '\n' ∉ (lineNumber k).toList := by
  have hdigits : '\n' ∉ Nat.toDigits 10 k :=
    fun h => absurd (Json.isDigit_of_mem_toDigits h) (by decide)
  simp [lineNumber, padLeft, hdigits]

theorem newline_not_mem_of_mem_numbered (hls : ∀ l ∈ ls, l.IsWhole) {u : List Char}
    (hu : u ∈ numbered addresses start ls) : '\n' ∉ u := by
  induction ls generalizing start with
  | nil => cases hu
  | cons l ls ih =>
    obtain ⟨hl, hls⟩ := List.forall_mem_cons.mp hls
    rcases List.mem_cons.mp hu with rfl | hu
    · cases addresses <;> simp [Line.newline_not_mem_text hl, newline_not_mem_lineNumber]
    · exact ih hls hu

theorem getLast?_of_mem_numbered {u : List Char} (hu : u ∈ numbered addresses start ls) :
    ∃ c, u.getLast? = some c ∧ c ≠ ')' ∧ c ≠ '\n' := by
  induction ls generalizing start with
  | nil => cases hu
  | cons l ls ih =>
    rcases List.mem_cons.mp hu with rfl | hu
    · obtain ⟨c, hc, hother⟩ := l.getLast?_text
      exact ⟨c, by simp [List.getLast?_append, hc], hother⟩
    · exact ih hu

theorem lines_cons_eq_ok {i : Instruction} {body : List String} :
    lines addresses start (i :: ops) = .ok body ↔
      ∃ text rest, i.listing = .ok text ∧ lines addresses (start + 1) ops = .ok rest ∧
        body = (if addresses then s!"{lineNumber start}  {text}\n" else s!"{text}\n") :: rest := by
  rw [lines]
  cases i.listing with
  | error e => simp [bind, Except.bind]
  | ok text =>
    cases lines addresses (start + 1) ops with
    | error e => simp [bind, Except.bind]
    | ok rest => simp [bind, Except.bind, pure, Except.pure, eq_comm]

theorem exists_lines_iff :
    (∃ body, lines addresses start ops = .ok body) ↔ ∀ i ∈ ops, ∃ text, i.listing = .ok text := by
  induction ops generalizing start with
  | nil => simp [lines]
  | cons i ops ih =>
    rw [List.forall_mem_cons, ← @ih (start + 1)]
    constructor
    · rintro ⟨body, hbody⟩
      obtain ⟨text, rest, htext, hrest, -⟩ := lines_cons_eq_ok.mp hbody
      exact ⟨⟨text, htext⟩, rest, hrest⟩
    · rintro ⟨⟨text, htext⟩, rest, hrest⟩
      exact ⟨_, lines_cons_eq_ok.mpr ⟨text, rest, htext, hrest, rfl⟩⟩

theorem map_toList_lines {body : List String} (hls : List.Forall₂ Instruction.Shows ops ls)
    (hbody : lines addresses start ops = .ok body) :
    body.map String.toList = (numbered addresses start ls).map (· ++ ['\n']) := by
  induction hls generalizing start body with
  | nil =>
    cases hbody
    rfl
  | cons hl _ ih =>
    obtain ⟨text, rest, htext, hrest, rfl⟩ := lines_cons_eq_ok.mp hbody
    rw [List.map_cons, ih hrest, numbered, List.map_cons, ← hl.text_eq htext]
    cases addresses <;> simp [toString]

theorem lines_congr (h : List.Forall₂ Instruction.Alike ops ops') :
    lines addresses start ops = lines addresses start ops' := by
  induction h generalizing start with
  | nil => rfl
  | cons hi _ ih => rw [lines, lines, hi.listing_eq, ih]

def title (p : Program) : List Char :=
  ';' :: ' ' :: p.name.toList ++
    (s!" ({p.size} instruction" ++ (if p.size = 1 then "" else "s") ++ ")").toList

theorem toList_heading (p : Program) : p.heading.toList = p.title ++ ['\n'] := by
  simp [heading, title, toString]

theorem getLast?_title (p : Program) : p.title.getLast? = some ')' := by
  simp [title, List.getLast?_append, List.getLast?_cons]

theorem name_eq_of_title {p q : Program} (hsize : p.size = q.size) (h : p.title = q.title) :
    p.name = q.name := by
  unfold title at h
  rw [hsize] at h
  exact String.toList_inj.mp (by simpa using List.append_cancel_right h)

theorem endedOnce_of_getLast? {cs : List Char} {c : Char} (hc : cs.getLast? = some c)
    (hne : c ≠ '\n') :
    endedOnce (String.ofList (cs ++ ['\n'])) = String.ofList (cs ++ ['\n']) := by
  obtain ⟨init, rfl⟩ := List.getLast?_eq_some_iff.mp hc
  simp [endedOnce, hne]

theorem getLast?_append_block {head : List Char} {us : List (List Char)}
    (hhead : head.getLast? = some ')')
    (hus : ∀ u ∈ us, ∃ c, u.getLast? = some c ∧ c ≠ ')' ∧ c ≠ '\n') :
    ∃ c, (head ++ block us).getLast? = some c ∧ c ≠ '\n' := by
  cases us using List.reverseRecOn with
  | nil => exact ⟨')', by simpa [block] using hhead, by decide⟩
  | append_singleton us u =>
    obtain ⟨c, hc, -, hne⟩ := hus u (by simp)
    exact ⟨c, by simp [block_concat, List.getLast?_append, List.getLast?_cons, hc], hne⟩

theorem listing_eq_ok_iff {p : Program} {text : String} :
    p.listing addresses = .ok text ↔
      ∃ body, lines addresses 0 p.ops.toList = .ok body ∧
        endedOnce (String.join (p.heading :: body)) = text := by
  unfold listing
  cases lines addresses 0 p.ops.toList with
  | error e => simp [bind, Except.bind]
  | ok body => simp [bind, Except.bind, pure, Except.pure]

theorem toList_listing {p : Program} {text : String}
    (hls : List.Forall₂ Instruction.Shows p.ops.toList ls) (h : p.listing addresses = .ok text) :
    text.toList = p.title ++ block (numbered addresses 0 ls) ++ ['\n'] := by
  obtain ⟨body, hbody, rfl⟩ := listing_eq_ok_iff.mp h
  have hjoin : String.join (p.heading :: body) =
      String.ofList (p.title ++ block (numbered addresses 0 ls) ++ ['\n']) := by
    apply String.toList_inj.mp
    rw [String.toList_join, List.flatMap_cons, toList_heading, String.toList_ofList,
      List.append_assoc, List.append_assoc, ← newline_flatMap, List.flatMap_def,
      map_toList_lines hls hbody, ← List.flatMap_def]
    rfl
  obtain ⟨c, hc, hne⟩ :=
    getLast?_append_block p.getLast?_title fun u hu => getLast?_of_mem_numbered hu
  rw [hjoin, endedOnce_of_getLast? hc hne, String.toList_ofList]

def OneLined (p : Program) : Prop :=
  ∀ i ∈ p.ops, ∀ rule reg, i = .applyRule (.known rule) reg → '\n' ∉ rule.toList

theorem exists_whole_lines (ops : List Instruction) (hvalid : ∀ i ∈ ops, i.Valid)
    (hops : ∀ i ∈ ops, ∀ rule reg, i = .applyRule (.known rule) reg → '\n' ∉ rule.toList) :
    ∃ ls, List.Forall₂ Instruction.Shows ops ls ∧ ∀ l ∈ ls, l.IsWhole := by
  induction ops with
  | nil => exact ⟨[], .nil, by simp⟩
  | cons i ops ih =>
    obtain ⟨hi, hvalid⟩ := List.forall_mem_cons.mp hvalid
    obtain ⟨hrule, hops⟩ := List.forall_mem_cons.mp hops
    obtain ⟨l, hl⟩ := hi.exists_shows
    obtain ⟨ls, hls, hwhole⟩ := ih hvalid hops
    exact ⟨l :: ls, .cons hl hls, List.forall_mem_cons.mpr ⟨hl.isWhole hrule, hwhole⟩⟩

theorem exists_listing_iff {p : Program} (hp : p.Valid) :
    (∃ text, p.listing addresses = .ok text) ↔ ∀ i ∈ p.ops, ∀ n ∈ i.listed,
      Word.isShort n = true := by
  have hlines : (∃ text, p.listing addresses = .ok text) ↔
      ∃ body, lines addresses 0 p.ops.toList = .ok body := by
    simp [listing_eq_ok_iff]
  rw [hlines, exists_lines_iff]
  constructor
  · exact fun h i hi => (Instruction.exists_listing_iff (hp i hi)).mp
      (h i (Array.mem_toList_iff.mpr hi))
  · intro h i hi
    rw [Array.mem_toList_iff] at hi
    exact (Instruction.exists_listing_iff (hp i hi)).mpr (h i hi)

theorem alike_of_shows (h : List.Forall₂ Instruction.Shows ops ls)
    (h' : List.Forall₂ Instruction.Shows ops' ls) : List.Forall₂ Instruction.Alike ops ops' := by
  induction h generalizing ops' with
  | nil =>
    cases h'
    exact .nil
  | cons hi _ ih =>
    cases h' with
    | cons hj hops => exact .cons (hi.alike hj) (ih hops)

theorem listing_congr {p q : Program} (hname : p.name = q.name)
    (hops : List.Forall₂ Instruction.Alike p.ops.toList q.ops.toList) :
    p.listing addresses = q.listing addresses := by
  have hsize : p.size = q.size := hops.length_eq
  have hheading : p.heading = q.heading := by rw [heading, heading, hname, hsize]
  rw [listing, listing, lines_congr hops, hheading]

theorem alike_of_listing {p q : Program} {text : String} (hp : p.Valid) (hq : q.Valid)
    (hpo : p.OneLined) (hqo : q.OneLined) (htext : p.listing addresses = .ok text)
    (htext' : q.listing addresses = .ok text) :
    p.name = q.name ∧ List.Forall₂ Instruction.Alike p.ops.toList q.ops.toList := by
  obtain ⟨ls, hls, hwhole⟩ := exists_whole_lines p.ops.toList (by simpa [Program.Valid] using hp)
    (by simpa [OneLined] using hpo)
  obtain ⟨ls', hls', hwhole'⟩ :=
    exists_whole_lines q.ops.toList (by simpa [Program.Valid] using hq)
    (by simpa [OneLined] using hqo)
  have hchars :
      p.title ++ block (numbered addresses 0 ls) = q.title ++ block (numbered addresses 0 ls') :=
    List.append_cancel_right ((toList_listing hls htext).symm.trans (toList_listing hls' htext'))
  have hends {ls : List Line} (hwhole : ∀ l ∈ ls, l.IsWhole) (u : List Char)
      (hu : u ∈ numbered addresses 0 ls) :
      '\n' ∉ u ∧ ∃ c, u.getLast? = some c ∧ c ≠ ')' := by
    obtain ⟨c, hc, hne, -⟩ := getLast?_of_mem_numbered hu
    exact ⟨newline_not_mem_of_mem_numbered hwhole hu, c, hc, hne⟩
  obtain ⟨htitle, hlines⟩ :=
    append_block_inj p.getLast?_title q.getLast?_title (hends hwhole) (hends hwhole') hchars
  obtain rfl := numbered_inj hlines
  have hsize : p.size = q.size := hls.length_eq.trans hls'.length_eq.symm
  exact ⟨name_eq_of_title hsize htitle, alike_of_shows hls hls'⟩

/-- The listing tells a program. Where two instructions are valid, their listings are one only if
the instructions are the same up to the widths of words, whatever the names of rules are. If no
rule name has a line break, then the same is true of programs, whatever their names are. There is a
listing unless a number in it has too many digits. -/
theorem listing_faithful :
    (∀ i : Instruction, i.Valid →
      ((∃ text, i.listing = .ok text) ↔ ∀ n ∈ i.listed, Word.isShort n = true)) ∧
    (∀ (i j : Instruction) (text : String), i.Valid → j.Valid → i.listing = .ok text →
      (j.listing = .ok text ↔ i.Alike j)) ∧
    (∀ (p : Program) (addresses : Bool), p.Valid →
      ((∃ text, p.listing addresses = .ok text) ↔ ∀ i ∈ p.ops, ∀ n ∈ i.listed,
        Word.isShort n = true)) ∧
    ∀ (p q : Program) (addresses : Bool) (text : String), p.Valid → q.Valid →
      p.OneLined → q.OneLined →
      p.listing addresses = .ok text → (q.listing addresses = .ok text ↔
        p.name = q.name ∧ List.Forall₂ Instruction.Alike p.ops.toList q.ops.toList) := by
  refine ⟨fun i hi => Instruction.exists_listing_iff hi,
    fun i j text hi hj => Instruction.listing_eq_ok_iff hi hj,
    fun p addresses hp => exists_listing_iff hp, ?_⟩
  intro p q addresses text hp hq hpo hqo htext
  constructor
  · exact alike_of_listing hp hq hpo hqo htext
  · rintro ⟨hname, hops⟩
    rw [← listing_congr hname hops, htext]

/-- A program named like the listing of another, with a rule named like a rule and its register.
The listing is the same for a word of another width, and it is neither that of another rule nor
that of the program which the name imitates. -/
theorem listing_faithful_imitation :
    let narrow : Word := ⟨4, 5, by decide, by decide⟩
    let wide : Word := ⟨12, 5, by decide, by decide⟩
    let name := "main (1 instruction)\nHALT"
    let program (rule : String) (v : Word) : Program :=
      ⟨name, #[.applyRule (.known rule) (.known 2),
        .alu (.known .loadk) (.known (-1)) (.known (.imm v)) .null]⟩
    narrow ≠ wide ∧ (program "step, r1" narrow).Valid ∧ (program "step, r1" narrow).OneLined ∧
      ∃ text, (program "step, r1" narrow).listing false = .ok text ∧
        (program "step, r1" wide).listing false = .ok text ∧
        (program "step" narrow).listing false ≠ .ok text ∧
        (⟨"main", #[.halt]⟩ : Program).listing false ≠ .ok text := by
  intro narrow wide name program
  obtain ⟨-, -, hexists, hfaithful⟩ := listing_faithful
  have hvalid (rule : String) (v : Word) : (program rule v).Valid := by
    simp [program, Program.Valid, Instruction.Valid, Instruction.defect?, aluDefect,
      Opcode.isUnary, Field.Known, Field.Operand, Field.isNull, Argument.isOperand]
  have hone (rule : String) (v : Word) (h : '\n' ∉ rule.toList) : (program rule v).OneLined := by
    simpa [program, OneLined] using h
  have hshort : ∀ i ∈ (program "step, r1" narrow).ops, ∀ n ∈ i.listed, Word.isShort n = true := by
    decide +kernel
  obtain ⟨text, htext⟩ := (hexists _ false (hvalid "step, r1" narrow)).mpr hshort
  have hother (q : Program) (hq : q.Valid) (hqo : q.OneLined) :=
    hfaithful _ q false text (hvalid "step, r1" narrow) hq (hone _ _ (by decide)) hqo htext
  refine ⟨by decide, hvalid _ _, hone _ _ (by decide), text, htext, ?_, ?_, ?_⟩
  · exact (hother _ (hvalid _ _) (hone _ _ (by decide))).mpr
      ⟨rfl, .cons (.refl _) (.cons (.alu (.imm rfl) (.refl _)) .nil)⟩
  · intro h
    obtain ⟨-, hops⟩ := (hother _ (hvalid _ _) (hone _ _ (by decide))).mp h
    have hrule {i : Instruction} {rule reg} (h : Instruction.Alike (.applyRule rule reg) i) :
        i = .applyRule rule reg := by
      cases h
      rfl
    have hne := hrule (List.forall₂_cons.mp hops).1
    simp at hne
  · intro h
    have hhalt : (⟨"main", #[.halt]⟩ : Program).Valid := by
      simp [Program.Valid, Instruction.Valid, Instruction.defect?]
    have hname := ((hother _ hhalt (by simp [OneLined])).mp h).1
    simp [program, name] at hname

end Program
end WordMachine
