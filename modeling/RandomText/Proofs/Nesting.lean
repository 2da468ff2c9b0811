import RandomText.Draw.Replay
import RandomText.Proofs.Lowering
import RandomText.Proofs.Pattern.Spelling

/-!
# How deep lowered text is nested

`Node.brackets` is the exact number of brackets that are open at once in the text that a tree is
lowered to, and `Node.frames` is the exact number of frames that reading the text takes
(`measured_lower`). Brackets in string literals do not count, since they are no tokens. A group takes two
brackets or, repeated, three, a leaf takes three at most, and a range block, which the reader's limit
does not count, takes five. So a pattern read with the limit `d` stays within `3 * d + 7` brackets and
`32 * d + 72` frames, and `chain d` gets there. With the default limit this is more than the usual stack
has room for, so that there are patterns whose trees generate and whose lowered texts do not run.
-/

namespace RandomText

/-! ### Measures of a tree -/

namespace Atom

/-- How many brackets are open at once in the lowered text of one instance of a leaf. -/
def brackets : Atom → Nat
  | literal _ => 0
  | alpha _ => 1
  | symbol => 1
  | basicSymbol => 1
  | sampleSet _ _ => 1
  | _ => 2

/-- How many frames reading that text takes. The second bound of a range stands behind a comma. -/
def frames : Atom → Nat
  | literal _ => 0
  | alpha _ => 8
  | symbol => 8
  | basicSymbol => 8
  | sampleSet _ _ => 8
  | _ => 20

theorem brackets_le (atom : Atom) : atom.brackets ≤ 2 := by
  cases atom <;> simp [brackets]

theorem frames_le (atom : Atom) : atom.frames ≤ 20 := by
  cases atom <;> simp [frames]

end Atom

namespace Node

mutual

/-- How many brackets are open at once in the lowered text. -/
def brackets : Node → Nat
  | leaf tag atom => (if tag.repeatCount = 1 then 0 else 1) + atom.brackets
  | group tag _ children => (if tag.repeatCount = 1 then 2 else 3) + bracketsAll children

def bracketsAll : List Node → Nat
  | [] => 0
  | node :: rest => max (brackets node) (bracketsAll rest)

end

mutual

/-- How many frames reading the lowered text takes. -/
def frames : Node → Nat
  | leaf tag atom => (if tag.repeatCount = 1 then 0 else 12) + atom.frames
  | group tag _ children => (if tag.repeatCount = 1 then 16 else 28) + framesFirst children

/-- The frames of nodes of which the first stands behind no comma. -/
def framesFirst : List Node → Nat
  | [] => 0
  | node :: rest => max (frames node) (framesRest rest)

def framesRest : List Node → Nat
  | [] => 0
  | node :: rest => max (4 + frames node) (framesRest rest)

end

theorem framesFirst_le (nodes : List Node) : framesFirst nodes ≤ framesRest nodes := by
  cases nodes with
  | nil => exact Nat.le_refl 0
  | cons node rest =>
    rw [framesFirst, framesRest]
    omega

theorem segments_le {children : List Node} (h : ∀ child ∈ children, child.segment?.isSome = true) :
    bracketsAll children ≤ 2 ∧ framesRest children ≤ 24 := by
  induction children with
  | nil => exact ⟨Nat.zero_le 2, Nat.zero_le 24⟩
  | cons child rest ih =>
    obtain ⟨hchild, hrest⟩ := List.forall_mem_cons.mp h
    obtain ⟨tag, atom, rfl, hcount, -, -⟩ := segment?_eq_some hchild
    obtain ⟨hbrackets, hframes⟩ := ih hrest
    have hatom := atom.brackets_le
    have hatomFrames := atom.frames_le
    rw [bracketsAll, framesRest, brackets, frames, if_pos hcount, if_pos hcount]
    omega

mutual

/-- A group adds at most three brackets and 32 frames. A range block, which the limit does not count, has
at most five brackets and 52 frames. -/
theorem measures_le (node : Node) :
    node.brackets ≤ 3 * node.groupDepth + 5 ∧ node.frames ≤ 32 * node.groupDepth + 52 := by
  match node with
  | .leaf tag atom =>
    have hbrackets := atom.brackets_le
    have hframes := atom.frames_le
    rw [brackets, frames]
    split <;> omega
  | .group tag kind children =>
    have hfirst := framesFirst_le children
    rw [brackets, frames, groupDepth]
    by_cases hblock : isRangeBlock kind children = true
    · obtain ⟨-, -, hsegments⟩ := segments_of_isRangeBlock hblock
      have hsmall := segments_le hsegments
      split <;> omega
    · have hchildren := measuresAll_le children
      rw [if_neg hblock]
      split <;> omega

theorem measuresAll_le (nodes : List Node) :
    bracketsAll nodes ≤ 3 * groupDepthAll nodes + 5 ∧
      framesRest nodes ≤ 32 * groupDepthAll nodes + 56 := by
  match nodes with
  | [] => exact ⟨Nat.zero_le _, Nat.zero_le _⟩
  | node :: rest =>
    have hnode := measures_le node
    have hrest := measuresAll_le rest
    rw [bracketsAll, framesRest, groupDepthAll]
    omega

end

theorem measures_root_le {root : Node} {limit : Nat} (h : root.WellFormed limit) :
    root.brackets ≤ 3 * limit + 7 ∧ root.frames ≤ 32 * limit + 72 := by
  match root, h with
  | .group tag .root children, ⟨honce, _, hdepth⟩ =>
    have hchildren := measuresAll_le children
    have hfirst := framesFirst_le children
    rw [brackets, frames, if_pos honce, if_pos honce]
    omega

end Node

/-! ### Measures of a text -/

/-- Wherever it stands, the text renders an expression with exactly `k` brackets open at once that takes
`m` frames. -/
def Shows (t : Text) (k m : Nat) : Prop :=
  ∀ i, ∃ e, Expr.Spells i t e ∧ e.depth = k ∧ e.frames = m

/-- Wherever they stand, the texts with commas between them render expressions with exactly `k` brackets
open at once that take `m` frames, or `n` frames if they all stand behind a comma. -/
def ShowsAll (ts : List Text) (k m n : Nat) : Prop :=
  ∀ i, ∃ es, es.length = ts.length ∧ Expr.SpellsAll i (Text.joined ", " ts) es ∧
    Expr.depthAll es = k ∧ Expr.framesFirst es = m ∧ Expr.framesRest es = n

theorem Shows.measured {t : Text} {k m : Nat} (h : Shows t k m) :
    (Expr.Token.lex 0 t).complete = true ∧ Expr.nesting t = k ∧ Expr.demand t = m := by
  obtain ⟨e, hspells, rfl, rfl⟩ := h 0
  obtain ⟨ls, he, hwritten⟩ := hspells.renders
  refine ⟨?_, Expr.nesting_of_written he hwritten, Expr.demand_of_renders ⟨ls, he, hwritten⟩⟩
  rw [hwritten.lex_eq he.apart]

theorem shows_quoted (t : Text) : Shows t.quoted 0 0 := by
  intro i
  exact ⟨_, Expr.spells_string i t, rfl, rfl⟩

theorem shows_lowerSample (chars : Text) : Shows (Atom.lowerSample chars) 1 8 := by
  intro i
  exact ⟨_, .call (isName_name .sample) (.one (Expr.spells_string _ chars)), rfl, rfl⟩

theorem shows_lowerRange (f : Expr.Function) {low high : Int} {t : Text} (hlow : 0 ≤ low)
    (hhigh : 0 ≤ high) (h : Atom.lowerRange f.name low high = .ok t) : Shows t 2 20 := by
  obtain ⟨a, rfl⟩ := Int.eq_ofNat_of_zero_le hlow
  obtain ⟨b, rfl⟩ := Int.eq_ofNat_of_zero_le hhigh
  intro i
  obtain ⟨-, j, k, l, hspells⟩ := spells_lowerRange h i
  exact ⟨_, hspells, rfl, rfl⟩

theorem shows_lower_atom {atom : Atom} (hunsigned : atom.Unsigned) {t : Text}
    (h : atom.lower = .ok t) : Shows t atom.brackets atom.frames := by
  cases atom with
  | literal text =>
    obtain rfl := Except.ok.inj h
    exact shows_quoted text
  | any => exact shows_lowerRange .chr (by decide) (by decide) h
  | alpha uppercase =>
    obtain rfl := Except.ok.inj h
    exact shows_lowerSample _
  | numeric => exact shows_lowerRange .str (by decide) (by decide) h
  | symbol =>
    obtain rfl := Except.ok.inj h
    exact shows_lowerSample _
  | basicSymbol =>
    obtain rfl := Except.ok.inj h
    exact shows_lowerSample _
  | sampleSet chars hne =>
    obtain rfl := Except.ok.inj h
    exact shows_lowerSample chars
  | range first last hle =>
    have hfirst : 0 ≤ first := hunsigned
    exact shows_lowerRange .str hfirst (by omega) h
  | charRange first last hle => exact shows_lowerRange .chr (by omega) (by omega) h

theorem Shows.lowerRepeated {n k m : Nat} {atom t : Text} (hatom : Shows atom k m)
    (h : Node.lowerRepeated n atom = .ok t) :
    Shows t ((if n = 1 then 0 else 1) + k) ((if n = 1 then 0 else 12) + m) := by
  intro i
  by_cases hone : n = 1
  · subst hone
    obtain rfl := Except.ok.inj h
    rw [if_pos rfl, if_pos rfl, Nat.zero_add, Nat.zero_add]
    exact hatom i
  · obtain ⟨e, hspells, hdepth, hframes⟩ := hatom
      (i + Expr.Function.repeat.name.length + 1 + (Numeral.digits n).length + 2)
    rw [if_neg hone, if_neg hone, Nat.add_comm]
    refine ⟨_, spells_lowerRepeated hone h hspells, ?_, ?_⟩
    · simp [Expr.depth, Expr.depthAll, hdepth]
    · simp only [Expr.frames, Expr.framesFirst, Expr.framesRest, hframes]
      omega

theorem ShowsAll.nil : ShowsAll [] 0 0 0 := by
  intro i
  exact ⟨[], rfl, .nil i, rfl, rfl, rfl⟩

theorem ShowsAll.cons {t : Text} {ts : List Text} {k m l m' n' : Nat} (h : Shows t k m)
    (hs : ShowsAll ts l m' n') : ShowsAll (t :: ts) (max k l) (max m n') (max (4 + m) n') := by
  intro i
  obtain ⟨e, hspells, rfl, rfl⟩ := h i
  obtain ⟨es, hlength, hspellsAll, rfl, rfl, rfl⟩ := hs (i + t.length + 2)
  exact ⟨e :: es, by simp [hlength], spellsAll_joined_cons hlength hspells hspellsAll, rfl, rfl, rfl⟩

theorem ShowsAll.lowerGroup {ts : List Text} {k m n : Nat} (h : ShowsAll ts k m n) (kind : GroupKind) :
    Shows (Node.lowerGroup kind ts) (2 + k) (16 + m) := by
  have hcall : ∀ f : Expr.Function, Shows (f.name ++ CodePoint.ofChar '(' :: CodePoint.ofChar '[' ::
      (Text.joined ", " ts ++ [CodePoint.ofChar ']', CodePoint.ofChar ')'])) (2 + k) (16 + m) := by
    intro f i
    obtain ⟨es, -, hspells, hdepth, hframes, -⟩ := h (i + f.name.length + 1 + 1)
    rw [Nat.add_comm 2 k]
    refine ⟨_, spells_list_call f hspells, ?_, ?_⟩
    · simp [Expr.depth, Expr.depthAll, hdepth]
    · simp only [Expr.frames, Expr.framesFirst, Expr.framesRest, hframes]
      omega
  by_cases hkind : kind = .choice
  · subst hkind
    exact hcall .sample
  · rw [lowerGroup_of_ne hkind]
    exact hcall .join

mutual

theorem shows_lower (node : Node) (hrunnable : node.Runnable) {t : Text} (h : node.lower = .ok t) :
    Shows t node.brackets node.frames := by
  match node, hrunnable with
  | .leaf tag atom, hunsigned =>
    obtain ⟨one, hone, hrepeated⟩ := Except.bind_eq_ok.mp h
    exact (shows_lower_atom hunsigned hone).lowerRepeated hrepeated
  | .group tag kind children, ⟨_, hchildren⟩ =>
    obtain ⟨ts, hts, hrepeated⟩ := Except.bind_eq_ok.mp h
    have hshows := ((showsAll_lowerAll children hchildren hts).lowerGroup kind).lowerRepeated hrepeated
    rw [Node.brackets, Node.frames]
    split at hshows
    · next hcount => simpa only [hcount, if_true, Nat.zero_add] using hshows
    · next hcount => simpa only [hcount, if_false, ← Nat.add_assoc] using hshows

theorem showsAll_lowerAll (nodes : List Node) (hrunnable : Node.RunnableAll nodes) {ts : List Text}
    (h : Node.lowerAll nodes = .ok ts) :
    ShowsAll ts (Node.bracketsAll nodes) (Node.framesFirst nodes) (Node.framesRest nodes) := by
  match nodes, hrunnable with
  | [], _ =>
    obtain rfl := Except.ok.inj h
    exact .nil
  | node :: rest, ⟨hnode, hrest⟩ =>
    obtain ⟨t, others, rfl, hfirst, hothers⟩ := lowerAll_cons_eq_ok h
    exact .cons (shows_lower node hnode hfirst) (showsAll_lowerAll rest hrest hothers)

end

/-- The lowered text of a tree consists of tokens. As many brackets are open in it at once, and reading it
takes as many frames, as the tree says. -/
theorem measured_lower {root : Node} {limit : Nat} (h : root.WellFormed limit) {lowered : Text}
    (hlower : root.lower = .ok lowered) : (Expr.Token.lex 0 lowered).complete = true ∧
      Expr.nesting lowered = root.brackets ∧ Expr.demand lowered = root.frames :=
  (shows_lower root (runnable_of_wellFormed h) hlower).measured

/-! ### Deepest patterns -/

/-- A leaf of two brackets. -/
def digitLeaf : Node := .leaf (.once none) (.range 0 9 (by decide))

/-- A repeated range block in `d` choices, each of them repeated and behind a digit. -/
def chain : Nat → Node
  | 0 => .group ⟨2, none, by decide⟩ .sequence [digitLeaf, digitLeaf]
  | d + 1 => .group ⟨2, none, by decide⟩ .choice [.leaf (.once none) .numeric, chain d]

/-- The pattern of `chain d`. -/
def chainRoot (d : Nat) : Node :=
  .group (.once none) .root [.leaf (.once none) .numeric, chain d]

theorem lt_limit_of_lt {n : Nat} (h : n ≤ 0x110000) : n < 10 ^ Numeral.maxDigits :=
  Nat.lt_of_le_of_lt h charBound_lt

theorem nested_numeric : (Node.leaf (.once none) .numeric).Nested :=
  Pattern.nested_leaf none trivial

theorem nested_chain (d : Nat) : (chain d).Nested := by
  induction d with
  | zero =>
    have hdigit : digitLeaf.Nested := Pattern.nested_leaf none ⟨by decide, lt_limit_of_lt (by decide)⟩
    exact ⟨lt_limit_of_lt (by decide), by decide, nofun, hdigit, hdigit, trivial⟩
  | succ d ih =>
    have hchoice : [.leaf (.once none) .numeric, chain d] ≠ [] := List.cons_ne_nil _ _
    exact ⟨lt_limit_of_lt (by decide), by decide, fun _ => hchoice, nested_numeric, ih, trivial⟩

theorem writable_numeric : (Node.leaf (.once none) .numeric).Writable :=
  ⟨lt_limit_of_lt (by decide), trivial⟩

theorem writable_chain (d : Nat) : (chain d).Writable := by
  induction d with
  | zero =>
    have hdigit : digitLeaf.Writable :=
      ⟨lt_limit_of_lt (by decide), lt_limit_of_lt (by decide), lt_limit_of_lt (by decide)⟩
    exact ⟨lt_limit_of_lt (by decide), hdigit, hdigit, trivial⟩
  | succ d ih => exact ⟨lt_limit_of_lt (by decide), writable_numeric, ih, trivial⟩

theorem groupDepth_chain (d : Nat) : (chain d).groupDepth = d := by
  induction d with
  | zero => rfl
  | succ d ih =>
    have hblock : ¬Node.isRangeBlock .choice [.leaf (.once none) .numeric, chain d] = true := by
      simp [Node.isRangeBlock, Node.segment?, Atom.isRange]
    rw [chain, Node.groupDepth, if_neg hblock]
    simp [Node.groupDepthAll, Node.groupDepth, ih, Nat.add_comm]

theorem measures_chain (d : Nat) : (chain d).brackets = 3 * d + 5 ∧ (chain d).frames = 32 * d + 52 := by
  induction d with
  | zero => exact ⟨rfl, rfl⟩
  | succ d ih =>
    have hbrackets : (chain (d + 1)).brackets = 3 + max 2 (max (chain d).brackets 0) := rfl
    have hframes : (chain (d + 1)).frames = 28 + max 20 (max (4 + (chain d).frames) 0) := rfl
    rw [hbrackets, hframes, ih.1, ih.2]
    omega

theorem wellFormed_chainRoot (d : Nat) : (chainRoot d).WellFormed d := by
  refine ⟨rfl, ⟨nested_numeric, nested_chain d, trivial⟩, ?_⟩
  simp [Node.groupDepthAll, Node.groupDepth, groupDepth_chain]

theorem measures_chainRoot (d : Nat) :
    (chainRoot d).brackets = 3 * d + 7 ∧ (chainRoot d).frames = 32 * d + 72 := by
  have hbrackets : (chainRoot d).brackets = 2 + max 2 (max (chain d).brackets 0) := rfl
  have hframes : (chainRoot d).frames = 16 + max 20 (max (4 + (chain d).frames) 0) := rfl
  rw [hbrackets, hframes, (measures_chain d).1, (measures_chain d).2]
  omega

/-- The spelling of `chain d` is accepted with the limit `d` and lowered to a text of the greatest
measures that the limit allows. -/
theorem measured_chain (settings : Pattern.Settings) :
    ∃ root lowered, Pattern.read settings (chainRoot settings.maxDepth.toNat).spelling = .ok root ∧
      root.Runnable ∧ root.lower = .ok lowered ∧
      Expr.nesting lowered = 3 * settings.maxDepth.toNat + 7 ∧
      Expr.demand lowered = 32 * settings.maxDepth.toNat + 72 := by
  have hchain := wellFormed_chainRoot settings.maxDepth.toNat
  obtain ⟨root, hread, hsame⟩ := Pattern.read_spelling settings hchain
  obtain ⟨lowered, hlower⟩ := lower_of_writable (chainRoot settings.maxDepth.toNat)
    ⟨lt_limit_of_lt (by decide), writable_numeric, writable_chain _, trivial⟩
  obtain ⟨-, hnesting, hdemand⟩ := measured_lower hchain hlower
  refine ⟨root, lowered, hread, runnable_of_wellFormed (Pattern.wellFormed_of_read hread),
    (lower_of_same _ _ hsame).trans hlower, ?_, ?_⟩
  · rw [hnesting, (measures_chainRoot _).1]
  · rw [hdemand, (measures_chainRoot _).2]

/-! ### Running lowered text -/

/-- A pattern's tree and the text that it is lowered to draw alike, if the stack has room for the text:
from every source in every state, the tree generates a text, and running the lowered text yields that
text with the same draws. On a smaller stack running the text ends before anything is drawn. -/
theorem generate_eq_run_lower [Expr.CallStack] (origin : Text) (strict : Bool) (pattern : Text) (root : Node)
    (lowered : Text)
    (hread : Pattern.read { origin := origin, strict := strict } pattern = .ok root)
    (hlower : root.lower = .ok lowered) (σ : Type) (source : Source σ) (d : Draws σ) :
    ∃ text d', (root.generate source).outcome d = (.ok text, d') ∧
      (Expr.run source lowered).outcome d =
        if Expr.demand lowered ≤ Expr.CallStack.room then (.ok text, d')
        else (.error (.unreadable .nestedTooDeeply), d) :=
  outcome_run_lower (runnable_of_wellFormed (Pattern.wellFormed_of_read hread)) hlower source d

/-- A repeated choice between a digit and a quote, with replayed draws. -/
theorem generate_eq_run_lower_choice :
    ∃ root, Pattern.read { origin := "<pattern>", strict := true } "\x7b#\"\\\"\"\x7d<2>" = .ok root ∧
      root.lower = .ok "join([repeat(2, sample([str(rand_range(0, 10)), \"\\\"\"]))])" ∧
      ∃ text d', (root.generate Replay.source).outcome (.start (.start [0, 7, 1] 0)) = (.ok text, d') ∧
        (Expr.run Replay.source "join([repeat(2, sample([str(rand_range(0, 10)), \"\\\"\"]))])").outcome
          (.start (.start [0, 7, 1] 0)) = (.ok text, d') := by
  have hlowered : (Pattern.read { origin := "<pattern>", strict := true }
      "\x7b#\"\\\"\"\x7d<2>").toOption.map Node.lower =
        some (.ok "join([repeat(2, sample([str(rand_range(0, 10)), \"\\\"\"]))])") := by
    decide +kernel
  have hroom : Expr.demand "join([repeat(2, sample([str(rand_range(0, 10)), \"\\\"\"]))])" ≤
      Expr.CallStack.room := by
    decide +kernel
  obtain ⟨root, hread, hlower⟩ := Option.map_eq_some_iff.mp hlowered
  have hread := Except.toOption_eq_some.mp hread
  obtain ⟨text, d', hgenerate, hrun⟩ :=
    generate_eq_run_lower "<pattern>" true _ root _ hread hlower Replay Replay.source
      (.start (.start [0, 7, 1] 0))
  rw [if_pos hroom] at hrun
  exact ⟨root, hread, hlower, text, d', hgenerate, hrun⟩

/-- The default limit admits a pattern whose tree generates and whose lowered text the usual stack has no
room for. -/
theorem generate_ne_run_lower :
    ∃ root lowered text d', Pattern.read {} (chainRoot 32).spelling = .ok root ∧
      root.lower = .ok lowered ∧
      (root.generate Replay.source).outcome (.start (.start [] 0)) = (.ok text, d') ∧
      (Expr.run Replay.source lowered).outcome (.start (.start [] 0)) =
        (.error (.unreadable .nestedTooDeeply), .start (.start [] 0)) := by
  obtain ⟨root, lowered, hread, hrunnable, hlower, -, hdemand⟩ := measured_chain {}
  obtain ⟨text, d', hgenerate, hrun⟩ :=
    outcome_run_lower hrunnable hlower Replay.source (.start (.start [] 0))
  have hdeep : ¬ Expr.demand lowered ≤ Expr.CallStack.room := by
    rw [hdemand]
    decide
  rw [if_neg hdeep] at hrun
  exact ⟨root, lowered, text, d', hread, hlower, hgenerate, hrun⟩

/-- **The limit on groups keeps lowered text shallow.** With a limit of `limit` groups, at most
`3 * limit + 7` brackets are open at once in the lowered text of a pattern, all of which consists of
tokens, and reading it takes at most `32 * limit + 72` frames. If the stack has room for so many, running
the text never fails because of its nesting, whatever the source, and in either mode some pattern gets to
both numbers. With the default limit at most 103 brackets are open, and some pattern gets there. -/
theorem nesting_lower_le [Expr.CallStack] (limit : Nat) :
    (∀ origin strict pattern root lowered,
      Pattern.read { origin := origin, strict := strict, maxDepth := limit } pattern = .ok root →
      root.lower = .ok lowered →
      (Expr.Token.lex 0 lowered).complete = true ∧ Expr.nesting lowered ≤ 3 * limit + 7 ∧
      Expr.demand lowered ≤ 32 * limit + 72 ∧
      (32 * limit + 72 ≤ Expr.CallStack.room → ∀ (σ : Type) (source : Source σ) (d : Draws σ),
        ((Expr.run source lowered).outcome d).1 ≠ .error (.unreadable .nestedTooDeeply))) ∧
    (32 * limit + 72 ≤ Expr.CallStack.room → ∀ origin strict, ∃ pattern root lowered,
      Pattern.read { origin := origin, strict := strict, maxDepth := limit } pattern = .ok root ∧
      root.lower = .ok lowered ∧ Expr.nesting lowered = 3 * limit + 7 ∧
      Expr.demand lowered = 32 * limit + 72 ∧ ∀ (σ : Type) (source : Source σ) (d : Draws σ),
        ∃ text d', (Expr.run source lowered).outcome d = (.ok text, d')) ∧
    ∀ origin strict,
      (∀ pattern root lowered,
        Pattern.read { origin := origin, strict := strict } pattern = .ok root →
        root.lower = .ok lowered → Expr.nesting lowered ≤ 103) ∧
      ∃ pattern root lowered, Pattern.read { origin := origin, strict := strict } pattern = .ok root ∧
        root.lower = .ok lowered ∧ Expr.nesting lowered = 103 := by
  refine ⟨?_, ?_, fun origin strict => ⟨?_, ?_⟩⟩
  · intro origin strict pattern root lowered hread hlower
    have hroot := Pattern.wellFormed_of_read hread
    obtain ⟨hcomplete, hnesting, hdemand⟩ := measured_lower hroot hlower
    obtain ⟨hbrackets, hframes⟩ := Node.measures_root_le hroot
    rw [← hnesting] at hbrackets
    rw [← hdemand] at hframes
    refine ⟨hcomplete, hbrackets, hframes, fun hroom σ source d hfault => ?_⟩
    obtain ⟨text, d', -, hrun⟩ := outcome_run_lower (runnable_of_wellFormed hroot) hlower source d
    rw [hrun, if_pos (Nat.le_trans hframes hroom)] at hfault
    cases hfault
  · intro hroom origin strict
    obtain ⟨root, lowered, hread, hrunnable, hlower, hnesting, hdemand⟩ :=
      measured_chain { origin := origin, strict := strict, maxDepth := limit }
    refine ⟨_, root, lowered, hread, hlower, hnesting, hdemand, fun σ source d => ?_⟩
    obtain ⟨text, d', -, hrun⟩ := outcome_run_lower hrunnable hlower source d
    rw [if_pos (hdemand ▸ hroom)] at hrun
    exact ⟨text, d', hrun⟩
  · intro pattern root lowered hread hlower
    have hroot := Pattern.wellFormed_of_read hread
    rw [(measured_lower hroot hlower).2.1]
    exact (Node.measures_root_le hroot).1
  · obtain ⟨root, lowered, hread, -, hlower, hnesting, -⟩ :=
      measured_chain { origin := origin, strict := strict }
    exact ⟨_, root, lowered, hread, hlower, hnesting⟩

/-- A repeated group with a quoted bracket and a repeated range block. -/
theorem nesting_lower_le_block :
    32 * 2 + 72 ≤ Expr.CallStack.room ∧ ∃ root lowered,
      Pattern.read { origin := "<pattern>", strict := true, maxDepth := (2 : Nat) }
        "(\"([\":a-c:1-2;<3>)<2>" = .ok root ∧ root.lower = .ok lowered ∧
      (Expr.Token.lex 0 lowered).complete = true ∧ Expr.nesting lowered ≤ 3 * 2 + 7 ∧
      Expr.demand lowered ≤ 32 * 2 + 72 ∧ ∀ (σ : Type) (source : Source σ) (d : Draws σ),
        ((Expr.run source lowered).outcome d).1 ≠ .error (.unreadable .nestedTooDeeply) := by
  have hroom : 32 * 2 + 72 ≤ Expr.CallStack.room := by decide
  have hlowered : ((Pattern.read { origin := "<pattern>", strict := true, maxDepth := (2 : Nat) }
      "(\"([\":a-c:1-2;<3>)<2>").toOption.bind fun root => root.lower.toOption).isSome = true := by
    decide +kernel
  obtain ⟨lowered, hsome⟩ := Option.isSome_iff_exists.mp hlowered
  obtain ⟨root, hread, hlower⟩ := Option.bind_eq_some_iff.mp hsome
  have hread := Except.toOption_eq_some.mp hread
  have hlower := Except.toOption_eq_some.mp hlower
  obtain ⟨hcomplete, hnesting, hdemand, hruns⟩ :=
    (nesting_lower_le 2).1 "<pattern>" true _ root lowered hread hlower
  exact ⟨hroom, root, lowered, hread, hlower, hcomplete, hnesting, hdemand, hruns hroom⟩

/-- At the default limit the brackets are no more than that, and yet running a lowered text fails because
of its nesting. -/
theorem run_lower_nestedTooDeeply :
    ∃ root lowered, Pattern.read {} (chainRoot 32).spelling = .ok root ∧ root.lower = .ok lowered ∧
      Expr.nesting lowered ≤ 103 ∧
      ((Expr.run Replay.source lowered).outcome (.start (.start [] 0))).1 =
        .error (.unreadable .nestedTooDeeply) := by
  obtain ⟨root, lowered, hread, hrunnable, hlower, hnesting, hdemand⟩ := measured_chain {}
  obtain ⟨text, d', -, hrun⟩ := outcome_run_lower hrunnable hlower Replay.source (.start (.start [] 0))
  have hdeep : ¬ Expr.demand lowered ≤ Expr.CallStack.room := by
    rw [hdemand]
    decide
  rw [if_neg hdeep] at hrun
  exact ⟨root, lowered, hread, hlower, Nat.le_of_eq hnesting, congrArg Prod.fst hrun⟩

end RandomText
