import RandomText.Draw.Replay
import RandomText.Proofs.Except
import RandomText.Proofs.Expr.Evaluation
import RandomText.Proofs.Expr.Writing
import RandomText.Proofs.Pattern.Legible
import RandomText.Proofs.Pattern.WellFormed

/-!
# Lowering keeps what is drawn

A tree without negative ranges and empty choices and the text that it is lowered to generate the
same from the same draws. Each lowered node is compared with the node on its own (`Computes`):
wherever its text stands, it renders an expression that evaluates to what the node generates. Whether
the text can be run depends on the call stack alone (`outcome_run_lower`). Lowering itself fails only at
numbers that are too long (`lower_of_writable`).
-/

namespace RandomText

open Drawing

/-- Wherever it stands, the text renders an expression that evaluates to what `x` generates from any
source. -/
def Computes (t : Text) (x : ∀ {σ : Type}, Source σ → Drawing σ GenerateError Text) : Prop :=
  ∀ i, ∃ e, Expr.Spells i t e ∧ ∀ {σ : Type} (source : Source σ), Expr.Yields source (x source) e

/-! ### Leaves -/

theorem isName_name (f : Expr.Function) : Expr.IsName f.name := by
  cases f <;> exact @Expr.Token.Spelt.name _ _ (by decide) (by decide)

theorem computes_literal (t : Text) : Computes t.quoted fun _ => pure t :=
  fun i => ⟨_, Expr.spells_string i t, fun source => Expr.yields_string source i t⟩

theorem computes_lowerSample {chars : Text} (h : chars ≠ []) :
    Computes (Atom.lowerSample chars) fun source => character source chars := by
  intro i
  have hname := isName_name .sample
  have hspells := Expr.Spells.call (i := i) hname (.one (Expr.spells_string _ chars))
  exact ⟨_, hspells, fun source => Expr.yields_sample source i _ h⟩

theorem spells_lowerRange {f : Expr.Function} {low high : Nat} {t : Text}
    (h : Atom.lowerRange f.name low high = .ok t) (i : Nat) :
    high < 10 ^ Numeral.maxDigits ∧ ∃ j k l, Expr.Spells i t (.call i f.name
      [.call j Expr.Function.randRange.name [.integer k low, .integer l high]]) := by
  obtain ⟨lowText, hlow, h⟩ := Except.bind_eq_ok.mp h
  obtain ⟨highText, hhigh, h⟩ := Except.bind_eq_ok.mp h
  obtain ⟨hlow_lt, rfl⟩ := Numeral.lt_of_write_eq_ok hlow
  obtain ⟨hhigh_lt, rfl⟩ := Numeral.lt_of_write_eq_ok hhigh
  let j := i + f.name.length + 1
  let k := j + Expr.Function.randRange.name.length + 1
  have hargs := Expr.SpellsAll.more (Expr.spells_integer k hlow_lt) (List.cons_ne_nil _ _)
    (.one (Expr.spells_integer _ hhigh_lt))
  have hdraw : Expr.Spells j _ _ := .call (isName_name .randRange) hargs
  have hcall : Expr.Spells i _ _ := .call (isName_name f) (.one hdraw)
  have htext : t = f.name ++ CodePoint.ofChar '(' :: (Expr.Function.randRange.name ++
      CodePoint.ofChar '(' :: (Numeral.digits low ++ CodePoint.ofChar ',' ::
        CodePoint.ofChar ' ' :: Numeral.digits high ++ [CodePoint.ofChar ')']) ++
      [CodePoint.ofChar ')']) := by
    obtain rfl := Except.ok.inj h
    simp only [List.append_assoc, List.cons_append]
    rfl
  rw [htext]
  exact ⟨hhigh_lt, _, _, _, hcall⟩

theorem computes_lowerRange (f : Expr.Function) {low high : Int} {t : Text}
    {x : ∀ {σ : Type}, Source σ → Drawing σ GenerateError Text} (hpos : 0 ≤ low) (hlt : low < high)
    (h : Atom.lowerRange f.name low high = .ok t)
    (hx : ∀ a b : Nat, low = a → high = b → a < b → b < 10 ^ Numeral.maxDigits →
      ∀ (i j k l : Nat) {σ : Type} (source : Source σ), Expr.Yields source (x source)
        (.call i f.name [.call j Expr.Function.randRange.name [.integer k a, .integer l b]])) :
    Computes t x := by
  obtain ⟨a, rfl⟩ := Int.eq_ofNat_of_zero_le hpos
  obtain ⟨b, rfl⟩ := Int.eq_ofNat_of_zero_le (Int.le_of_lt (Int.lt_of_le_of_lt hpos hlt))
  intro i
  obtain ⟨hb, j, k, l, hspells⟩ := spells_lowerRange h i
  exact ⟨_, hspells, fun source => hx a b rfl rfl (Int.ofNat_lt.mp hlt) hb i j k l source⟩

theorem computes_decimal {low high : Int} {t : Text} (hpos : 0 ≤ low) (hlt : low < high)
    (h : Atom.lowerRange Expr.Function.str.name low high = .ok t) :
    Computes t fun source => decimalInRange source low high := by
  refine computes_lowerRange .str hpos hlt h ?_
  rintro a b rfl rfl hab hb i j k l σ source
  exact Expr.yields_str source i j k l hab hb

theorem computes_code {low high : Int} {t : Text} (hpos : 0 ≤ low) (hlt : low < high)
    (hhigh : high ≤ 0x110000) (h : Atom.lowerRange Expr.Function.chr.name low high = .ok t) :
    Computes t fun source => codeInRange source low high := by
  refine computes_lowerRange .chr hpos hlt h ?_
  rintro a b rfl rfl hab - i j k l σ source
  exact Expr.yields_chr source i j k l hab (Int.ofNat_le.mp hhigh)

/-- The lowered text has no minus sign, which expressions do not have. -/
def Atom.Unsigned : Atom → Prop
  | range first _ _ => 0 ≤ first
  | _ => True

theorem computes_lower_atom {atom : Atom} (hunsigned : atom.Unsigned) {t : Text}
    (h : atom.lower = .ok t) : Computes t fun source => atom.generate source := by
  cases atom with
  | literal text =>
    obtain rfl := Except.ok.inj h
    exact computes_literal text
  | any => exact computes_code (by decide) (by decide) (by decide) h
  | alpha uppercase =>
    obtain rfl := Except.ok.inj h
    have hne : Atom.letters uppercase ≠ [] := by cases uppercase <;> decide
    exact computes_lowerSample hne
  | numeric => exact computes_decimal (by decide) (by decide) h
  | symbol =>
    obtain rfl := Except.ok.inj h
    exact computes_lowerSample (by decide)
  | basicSymbol =>
    obtain rfl := Except.ok.inj h
    exact computes_lowerSample (by decide)
  | sampleSet chars hne =>
    obtain rfl := Except.ok.inj h
    exact computes_lowerSample hne
  | range first last hle => exact computes_decimal hunsigned (Int.lt_add_one_of_le hle) h
  | charRange first last hle =>
    have hlast := last.isLt
    exact computes_code (by omega) (by omega) (by omega) h

/-! ### Repetitions -/

theorem spells_lowerRepeated {n i : Nat} (hn : n ≠ 1) {atom t : Text} {e : Expr}
    (h : Node.lowerRepeated n atom = .ok t)
    (hatom : Expr.Spells
      (i + Expr.Function.repeat.name.length + 1 + (Numeral.digits n).length + 2) atom e) :
    Expr.Spells i t (.call i Expr.Function.repeat.name
      [.integer (i + Expr.Function.repeat.name.length + 1) n, e]) := by
  unfold Node.lowerRepeated at h
  rw [if_neg hn] at h
  obtain ⟨count, hcount, h⟩ := Except.bind_eq_ok.mp h
  obtain ⟨hlt, rfl⟩ := Numeral.lt_of_write_eq_ok hcount
  have hargs := Expr.SpellsAll.more
    (Expr.spells_integer (i + Expr.Function.repeat.name.length + 1) hlt) (List.cons_ne_nil _ _)
    (.one hatom)
  have hcall : Expr.Spells i _ _ := .call (isName_name .repeat) hargs
  have htext : t = Expr.Function.repeat.name ++ CodePoint.ofChar '(' ::
      (Numeral.digits n ++ CodePoint.ofChar ',' :: CodePoint.ofChar ' ' :: atom ++
        [CodePoint.ofChar ')']) := by
    obtain rfl := Except.ok.inj h
    simp only [List.append_assoc, List.cons_append]
    rfl
  rw [htext]
  exact hcall

theorem computes_lowerRepeated {n : Nat} (hn : 1 ≤ n) {atom t : Text}
    {x : ∀ {σ : Type}, Source σ → Drawing σ GenerateError Text} (hatom : Computes atom x)
    (h : Node.lowerRepeated n atom = .ok t) :
    Computes t fun source => repeated n (x source) := by
  intro i
  by_cases hone : n = 1
  · subst hone
    obtain rfl := Except.ok.inj h
    obtain ⟨e, hspells, hyields⟩ := hatom i
    exact ⟨e, hspells, fun source => (hyields source).repeated_one⟩
  · obtain ⟨e, hspells, hyields⟩ := hatom
      (i + Expr.Function.repeat.name.length + 1 + (Numeral.digits n).length + 2)
    exact ⟨_, spells_lowerRepeated hone h hspells,
      fun source => Expr.yields_repeat source i _ (hyields source) hn⟩

/-! ### Children -/

/-- Wherever they stand, the texts with commas between them render expressions that evaluate to
what the nodes generate, all of them in order or one of them. -/
def ComputesAll (ts : List Text) (nodes : List Node) : Prop :=
  ts.length = nodes.length ∧
  ∀ i, ∃ es, es.length = nodes.length ∧ Expr.SpellsAll i (Text.joined ", " ts) es ∧
    ∀ {σ : Type} (source : Source σ),
      (∀ call, Agree (fun _ => True) id (Node.generateAll source nodes)
        (Expr.joinAll source call es)) ∧
      ∀ n, n < es.length → Agree (fun _ => True) Expr.Value.text (Node.generateAt source n nodes)
        (Expr.evaluateAt source n es)

theorem ComputesAll.nil : ComputesAll [] [] := by
  refine ⟨rfl, fun i => ⟨[], rfl, .nil i, fun source => ⟨fun call => ?_, nofun⟩⟩⟩
  exact Agree.pure trivial

theorem spellsAll_joined_cons {i : Nat} {t : Text} {ts : List Text} {e : Expr} {es : List Expr}
    (hlength : es.length = ts.length) (h : Expr.Spells i t e)
    (hs : Expr.SpellsAll (i + t.length + 2) (Text.joined ", " ts) es) :
    Expr.SpellsAll i (Text.joined ", " (t :: ts)) (e :: es) := by
  cases ts with
  | nil =>
    obtain rfl : es = [] := List.length_eq_zero_iff.mp hlength
    exact .one h
  | cons t' ts =>
    have hne : es ≠ [] := by
      rintro rfl
      cases hlength
    have htext : Text.joined ", " (t :: t' :: ts) =
        t ++ (CodePoint.ofChar ',' :: CodePoint.ofChar ' ' :: Text.joined ", " (t' :: ts)) := by
      rw [Text.joined, List.append_assoc]
      · rfl
      · nofun
    rw [htext]
    exact .more h hne hs

theorem ComputesAll.cons {t : Text} {ts : List Text} {node : Node} {nodes : List Node}
    (h : Computes t fun source => node.generate source) (hs : ComputesAll ts nodes) :
    ComputesAll (t :: ts) (node :: nodes) := by
  obtain ⟨hlength, hs⟩ := hs
  refine ⟨by rw [List.length_cons, List.length_cons, hlength], fun i => ?_⟩
  obtain ⟨e, hspells, hyields⟩ := h i
  obtain ⟨es, hes, hspellsAll, hrest⟩ := hs (i + t.length + 2)
  refine ⟨e :: es, by rw [List.length_cons, List.length_cons, hes],
    spellsAll_joined_cons (hes.trans hlength.symm) hspells hspellsAll, fun source => ⟨?_, ?_⟩⟩
  · intro call
    refine (Expr.agree_text (hyields source)).bind fun first _ => ?_
    exact ((hrest source).1 call).bind fun others _ => Agree.pure trivial
  · intro n hn
    cases n with
    | zero => exact hyields source
    | succ n => exact (hrest source).2 n (Nat.lt_of_succ_lt_succ hn)

/-! ### Groups -/

/-- One instance of a group. -/
def Node.generateGroup {σ : Type} (source : Source σ) (kind : GroupKind) (children : List Node) :
    Drawing σ GenerateError Text :=
  match kind with
  | .choice => do
    let i ← (inRange source 0 children.length).mapError GenerateError.empty
    generateAt source i.toNat children
  | _ => generateAll source children

theorem generate_group {σ : Type} (source : Source σ) (tag : Tag) (kind : GroupKind)
    (children : List Node) : (Node.group tag kind children).generate source =
      repeated tag.repeatCount (Node.generateGroup source kind children) := by
  cases kind <;> rfl

theorem spells_list_call (f : Expr.Function) {i : Nat} {t : Text} {es : List Expr}
    (h : Expr.SpellsAll (i + f.name.length + 1 + 1) t es) :
    Expr.Spells i (f.name ++ CodePoint.ofChar '(' :: CodePoint.ofChar '[' ::
      (t ++ [CodePoint.ofChar ']', CodePoint.ofChar ')']))
      (.call i f.name [.list (i + f.name.length + 1) es]) := by
  have hcall : Expr.Spells i _ _ := .call (isName_name f) (.one (.list h))
  simp only [List.append_assoc, List.cons_append] at hcall
  exact hcall

theorem lowerGroup_choice (ts : List Text) :
    Node.lowerGroup .choice ts = Expr.Function.sample.name ++ CodePoint.ofChar '(' ::
      CodePoint.ofChar '[' :: (Text.joined ", " ts ++ [CodePoint.ofChar ']', CodePoint.ofChar ')']) :=
  rfl

theorem lowerGroup_of_ne {kind : GroupKind} (h : kind ≠ .choice) (ts : List Text) :
    Node.lowerGroup kind ts = Expr.Function.join.name ++ CodePoint.ofChar '(' ::
      CodePoint.ofChar '[' ::
        (Text.joined ", " ts ++ [CodePoint.ofChar ']', CodePoint.ofChar ')']) := by
  cases kind with
  | choice => exact absurd rfl h
  | root => rfl
  | sequence => rfl

theorem computes_lowerGroup {ts : List Text} {kind : GroupKind} {children : List Node}
    (h : ComputesAll ts children) (hchoice : kind = .choice → children ≠ []) :
    Computes (Node.lowerGroup kind ts)
      fun source => Node.generateGroup source kind children := by
  obtain ⟨hlength, h⟩ := h
  intro i
  by_cases hkind : kind = .choice
  · subst hkind
    obtain ⟨es, hes, hspells, hrest⟩ := h (i + Expr.Function.sample.name.length + 1 + 1)
    rw [lowerGroup_choice]
    refine ⟨_, spells_list_call .sample hspells, fun source => ?_⟩
    have hne : es ≠ [] := by
      rintro rfl
      exact hchoice rfl (List.length_eq_zero_iff.mp hes.symm)
    have hyields := Expr.yields_choice source i (i + Expr.Function.sample.name.length + 1) hne
      (hrest source).2
    rw [hes] at hyields
    exact hyields
  · obtain ⟨es, hes, hspells, hrest⟩ := h (i + Expr.Function.join.name.length + 1 + 1)
    rw [lowerGroup_of_ne hkind]
    refine ⟨_, spells_list_call .join hspells, fun source => ?_⟩
    have hgroup : Node.generateGroup source kind children = Node.generateAll source children := by
      cases kind with
      | choice => exact absurd rfl hkind
      | root => rfl
      | sequence => rfl
    have hyields := Expr.yields_join source i (i + Expr.Function.join.name.length + 1)
      ((hrest source).1 _)
    rw [← hgroup] at hyields
    exact hyields

theorem computes_group {tag : Tag} {kind : GroupKind} {children : List Node} {ts : List Text}
    {t : Text} (h : ComputesAll ts children) (hchoice : kind = .choice → children ≠ [])
    (hlower : Node.lowerRepeated tag.repeatCount (Node.lowerGroup kind ts) = .ok t) :
    Computes t fun source => (Node.group tag kind children).generate source := by
  have hcomputes := computes_lowerRepeated tag.one_le (computes_lowerGroup h hchoice) hlower
  intro i
  obtain ⟨e, hspells, hyields⟩ := hcomputes i
  refine ⟨e, hspells, fun source => ?_⟩
  show Expr.Yields source ((Node.group tag kind children).generate source) e
  rw [generate_group]
  exact hyields source

theorem lowerAll_cons_eq_ok {node : Node} {nodes : List Node} {ts : List Text}
    (h : Node.lowerAll (node :: nodes) = .ok ts) :
    ∃ t others, ts = t :: others ∧ node.lower = .ok t ∧ Node.lowerAll nodes = .ok others := by
  obtain ⟨t, hfirst, h⟩ := Except.bind_eq_ok.mp h
  obtain ⟨others, hothers, h⟩ := Except.bind_eq_ok.mp h
  exact ⟨t, others, (Except.ok.inj h).symm, hfirst, hothers⟩

theorem computes_leaf {tag : Tag} {atom : Atom} {t : Text} (hunsigned : atom.Unsigned)
    (h : (Node.leaf tag atom).lower = .ok t) :
    Computes t fun source => (Node.leaf tag atom).generate source := by
  obtain ⟨one, hone, hrepeated⟩ := Except.bind_eq_ok.mp h
  exact computes_lowerRepeated tag.one_le (computes_lower_atom hunsigned hone) hrepeated

/-! ### Trees -/

namespace Node

mutual

/-- No range starts below zero and no choice is empty. -/
def Runnable : Node → Prop
  | leaf _ atom => atom.Unsigned
  | group _ kind children => (kind = .choice → children ≠ []) ∧ RunnableAll children

def RunnableAll : List Node → Prop
  | [] => True
  | node :: rest => Runnable node ∧ RunnableAll rest

end

end Node

mutual

/-- A node is lowered to a text that computes it. -/
theorem computes_lower (node : Node) (hrunnable : node.Runnable) {t : Text} (h : node.lower = .ok t) :
    Computes t fun source => node.generate source := by
  match node, hrunnable with
  | .leaf tag atom, hunsigned => exact computes_leaf hunsigned h
  | .group tag kind children, ⟨hchoice, hchildren⟩ =>
    obtain ⟨ts, hts, hrepeated⟩ := Except.bind_eq_ok.mp h
    exact computes_group (computesAll_lowerAll children hchildren hts) hchoice hrepeated

theorem computesAll_lowerAll (nodes : List Node) (hrunnable : Node.RunnableAll nodes) {ts : List Text}
    (h : Node.lowerAll nodes = .ok ts) : ComputesAll ts nodes := by
  match nodes, hrunnable with
  | [], _ =>
    obtain rfl := Except.ok.inj h
    exact .nil
  | node :: rest, ⟨hnode, hrest⟩ =>
    obtain ⟨t, others, rfl, hfirst, hothers⟩ := lowerAll_cons_eq_ok h
    exact .cons (computes_lower node hnode hfirst) (computesAll_lowerAll rest hrest hothers)

end

/-! ### Numbers that can be written -/

namespace Node

mutual

/-- All numbers of the lowered text are short enough to be written. -/
def Writable : Node → Prop
  | leaf tag atom => tag.repeatCount < 10 ^ Numeral.maxDigits ∧ atom.Writable
  | group tag _ children => tag.repeatCount < 10 ^ Numeral.maxDigits ∧ WritableAll children

def WritableAll : List Node → Prop
  | [] => True
  | node :: rest => Writable node ∧ WritableAll rest

end

end Node

theorem lowerRange_of_lt {function : Text} {low high : Int}
    (hlow : low.natAbs < 10 ^ Numeral.maxDigits) (hhigh : high.natAbs < 10 ^ Numeral.maxDigits) :
    ∃ t, Atom.lowerRange function low high = .ok t := by
  have hlow := Numeral.write_eq_ok_iff.mpr ⟨hlow, rfl⟩
  have hhigh := Numeral.write_eq_ok_iff.mpr ⟨hhigh, rfl⟩
  rw [Atom.lowerRange, hlow, hhigh]
  exact ⟨_, rfl⟩

theorem natAbs_lt_of_lt {n k : Nat} (hn : n < k) {i : Int} (hi : i.natAbs ≤ n) : i.natAbs < k := by
  omega

theorem charBound_lt : 0x110000 < 10 ^ Numeral.maxDigits :=
  Nat.lt_of_lt_of_le (by decide : 0x110000 < 10 ^ 7) (Nat.pow_le_pow_right (by decide) (by decide))

theorem lower_atom_of_writable {atom : Atom} (h : atom.Writable) : ∃ t, atom.lower = .ok t := by
  have hchar := charBound_lt
  cases atom with
  | any =>
    refine lowerRange_of_lt (natAbs_lt_of_lt hchar ?_) (natAbs_lt_of_lt hchar ?_) <;> decide
  | numeric =>
    refine lowerRange_of_lt (natAbs_lt_of_lt hchar ?_) (natAbs_lt_of_lt hchar ?_) <;> decide
  | range first last _ => exact lowerRange_of_lt h.1 h.2
  | charRange first last _ =>
    have hfirst := first.isLt
    have hlast := last.isLt
    refine lowerRange_of_lt (natAbs_lt_of_lt hchar ?_) (natAbs_lt_of_lt hchar ?_) <;> omega
  | _ => exact ⟨_, rfl⟩

theorem lowerRepeated_of_lt {n : Nat} (h : n < 10 ^ Numeral.maxDigits) (atom : Text) :
    ∃ t, Node.lowerRepeated n atom = .ok t := by
  unfold Node.lowerRepeated
  split
  · exact ⟨_, rfl⟩
  · rw [Numeral.write_eq_ok h]
    exact ⟨_, rfl⟩

mutual

/-- A tree whose numbers can be written has a lowered text. -/
theorem lower_of_writable (node : Node) (h : node.Writable) : ∃ t, node.lower = .ok t := by
  match node, h with
  | .leaf tag atom, ⟨hcount, hatom⟩ =>
    obtain ⟨one, hone⟩ := lower_atom_of_writable hatom
    rw [Node.lower, hone]
    exact lowerRepeated_of_lt hcount one
  | .group tag kind children, ⟨hcount, hchildren⟩ =>
    obtain ⟨ts, hts⟩ := lowerAll_of_writable children hchildren
    rw [Node.lower, hts]
    exact lowerRepeated_of_lt hcount _

theorem lowerAll_of_writable (nodes : List Node) (h : Node.WritableAll nodes) :
    ∃ ts, Node.lowerAll nodes = .ok ts := by
  match nodes, h with
  | [], _ => exact ⟨[], rfl⟩
  | node :: rest, ⟨hnode, hrest⟩ =>
    obtain ⟨t, ht⟩ := lower_of_writable node hnode
    obtain ⟨ts, hts⟩ := lowerAll_of_writable rest hrest
    rw [Node.lowerAll, ht, hts]
    exact ⟨t :: ts, rfl⟩

end

/-! ### Whole patterns -/

mutual

theorem lower_of_same (node other : Node) (h : node.same other = true) : node.lower = other.lower := by
  match node, other with
  | .leaf tag atom, .leaf tag' atom' =>
    simp only [Node.same, Bool.and_eq_true, decide_eq_true_eq] at h
    obtain ⟨hcount, rfl⟩ := h
    rw [Node.lower, Node.lower, hcount]
  | .group tag kind children, .group tag' kind' children' =>
    simp only [Node.same, Bool.and_eq_true, decide_eq_true_eq] at h
    obtain ⟨⟨hcount, rfl⟩, hchildren⟩ := h
    rw [Node.lower, Node.lower, hcount, lowerAll_of_same children children' hchildren]
  | .leaf _ _, .group _ _ _ => cases h
  | .group _ _ _, .leaf _ _ => cases h

theorem lowerAll_of_same (nodes others : List Node) (h : Node.sameAll nodes others = true) :
    Node.lowerAll nodes = Node.lowerAll others := by
  match nodes, others with
  | [], [] => rfl
  | node :: rest, other :: others =>
    obtain ⟨hnode, hrest⟩ := Bool.and_eq_true_iff.mp h
    rw [Node.lowerAll, Node.lowerAll, lower_of_same node other hnode, lowerAll_of_same rest others hrest]
  | [], _ :: _ => cases h
  | _ :: _, [] => cases h

end

theorem unsigned_of_spellable {atom : Atom} (h : atom.Spellable) : atom.Unsigned := by
  cases atom with
  | range first last _ => exact h.1
  | _ => trivial

mutual

theorem runnable_of_nested (node : Node) (h : node.Nested) : node.Runnable := by
  match node, h with
  | .leaf tag atom, ⟨_, hatom⟩ => exact unsigned_of_spellable hatom
  | .group tag kind children, ⟨_, _, hchoice, hchildren⟩ =>
    exact ⟨hchoice, runnableAll_of_nested children hchildren⟩

theorem runnableAll_of_nested (nodes : List Node) (h : Node.NestedAll nodes) :
    Node.RunnableAll nodes := by
  match nodes, h with
  | [], _ => trivial
  | node :: rest, ⟨hnode, hrest⟩ =>
    exact ⟨runnable_of_nested node hnode, runnableAll_of_nested rest hrest⟩

end

theorem runnable_of_wellFormed {root : Node} {limit : Nat} (h : root.WellFormed limit) :
    root.Runnable := by
  match root, h with
  | .group tag .root children, ⟨_, hnested, _⟩ => exact ⟨nofun, runnableAll_of_nested children hnested⟩

/-- What a node generates comes of running its lowered text as well, if the stack has room for the text.
If it has none, running ends before anything is drawn. -/
theorem outcome_run_lower [Expr.CallStack] {node : Node} (hrunnable : node.Runnable) {lowered : Text}
    (hlower : node.lower = .ok lowered) {σ : Type} (source : Source σ) (d : Draws σ) :
    ∃ text d', (node.generate source).outcome d = (.ok text, d') ∧
      (Expr.run source lowered).outcome d =
        if Expr.demand lowered ≤ Expr.CallStack.room then (.ok text, d')
        else (.error (.unreadable .nestedTooDeeply), d) := by
  obtain ⟨e, hspells, hyields⟩ := computes_lower node hrunnable hlower 0
  obtain ⟨text, d', -, hgenerate, heval⟩ := hyields source d
  refine ⟨text, d', hgenerate, ?_⟩
  by_cases hroom : Expr.demand lowered ≤ Expr.CallStack.room
  · rw [if_pos hroom]
    exact Expr.outcome_run_of_text source (hspells.read hroom) heval
  · rw [if_neg hroom]
    have hdeep := Expr.read_eq_nestedTooDeeply_iff.mpr (Nat.lt_of_not_le hroom)
    exact Expr.outcome_run_unreadable source hdeep d

end RandomText
