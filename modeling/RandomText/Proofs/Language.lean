import Mathlib.Computability.Language
import RandomText.Draw.Replay
import RandomText.Pattern.Generate
import RandomText.Proofs.Drawing
import RandomText.Proofs.Pattern.WellFormed

/-!
# The language of a pattern

The texts that a tree may generate form a language, given by the tree alone (`Node.language`):
a repetition is a power, a sequence a product, a choice a sum. Generating is sound and complete for
it. Both directions are carried by one relation between a computation and a set of values
(`Covers`): whatever the source, what comes out is in the set, and for each element there are draws
that, replayed, make it come out and are then used up.
-/

namespace RandomText

/-! ### Languages -/

/-- The texts of one character that has the property `P`. -/
def oneOf (P : CodePoint → Prop) : Language CodePoint := fun s => ∃ c, P c ∧ s = [c]

theorem oneOf_congr {P Q : CodePoint → Prop} (h : ∀ c, P c ↔ Q c) : oneOf P = oneOf Q := by
  rw [funext fun c => propext (h c)]

/-- The numerals of the integers that have the property `P`. -/
def numeralOf (P : Int → Prop) : Language CodePoint := fun s => ∃ n, P n ∧ s = Numeral.signed n

/-- The texts that one instance of a leaf may be. -/
def Atom.language : Atom → Language CodePoint
  | literal text => {text}
  | any => oneOf fun c => 32 ≤ c.val ∧ c.val ≤ 126
  | alpha uppercase => oneOf (· ∈ letters uppercase)
  | numeric => oneOf (· ∈ Text.ofString "0123456789")
  | symbol => oneOf (· ∈ symbols)
  | basicSymbol => oneOf (· ∈ basicSymbols)
  | sampleSet chars _ => oneOf (· ∈ chars)
  | range first last _ => numeralOf fun n => first ≤ n ∧ n ≤ last
  | charRange first last _ => oneOf fun c => first.val ≤ c.val ∧ c.val ≤ last.val

namespace Node

mutual

/-- The texts that a node may generate, all its repetitions included. -/
def language : Node → Language CodePoint
  | leaf tag atom => atom.language ^ tag.repeatCount
  | group tag .choice children => languageAny children ^ tag.repeatCount
  | group tag _ children => languageAll children ^ tag.repeatCount

/-- One text of each node, in order. -/
def languageAll : List Node → Language CodePoint
  | [] => 1
  | node :: rest => language node * languageAll rest

/-- A text of one of the nodes. -/
def languageAny : List Node → Language CodePoint
  | [] => 0
  | node :: rest => language node + languageAny rest

end

theorem mem_languageAny {nodes : List Node} {s : Text} :
    s ∈ languageAny nodes ↔ ∃ node ∈ nodes, s ∈ node.language := by
  induction nodes with
  | nil => simp [languageAny, Language.notMem_zero]
  | cons node rest ih => simp [languageAny, Language.mem_add, ih]

mutual

theorem language_of_same (node other : Node) (h : node.same other = true) :
    node.language = other.language := by
  match node, other with
  | .leaf tag atom, .leaf tag' atom' =>
    simp only [same, Bool.and_eq_true, decide_eq_true_eq] at h
    obtain ⟨hcount, rfl⟩ := h
    rw [language, language, hcount]
  | .group tag kind children, .group tag' kind' children' =>
    simp only [same, Bool.and_eq_true, decide_eq_true_eq] at h
    obtain ⟨⟨hcount, rfl⟩, hchildren⟩ := h
    obtain ⟨hall, hany⟩ := languages_of_sameAll children children' hchildren
    cases kind with
    | root => rw [language, language, hcount, hall] <;> nofun
    | sequence => rw [language, language, hcount, hall] <;> nofun
    | choice => rw [language, language, hcount, hany]
  | .leaf _ _, .group _ _ _ => cases h
  | .group _ _ _, .leaf _ _ => cases h

theorem languages_of_sameAll (nodes others : List Node) (h : sameAll nodes others = true) :
    languageAll nodes = languageAll others ∧ languageAny nodes = languageAny others := by
  match nodes, others with
  | [], [] => exact ⟨rfl, rfl⟩
  | node :: rest, other :: others =>
    obtain ⟨hnode, hrest⟩ := Bool.and_eq_true_iff.mp h
    obtain ⟨hall, hany⟩ := languages_of_sameAll rest others hrest
    have hfirst := language_of_same node other hnode
    exact ⟨by rw [languageAll, languageAll, hfirst, hall], by rw [languageAny, languageAny, hfirst, hany]⟩
  | [], _ :: _ => cases h
  | _ :: _, [] => cases h

end

end Node

/-! ### Computations and the values they may give -/

namespace Drawing

variable {ε ε' α β : Type}

/-- The values that the computation may give are those in `S`. -/
structure Covers (x : ∀ {σ : Type}, Source σ → Drawing σ ε α) (S : Set α) : Prop where
  sound : ∀ {σ : Type} (source : Source σ) {d d' : Draws σ} {a : α},
    (x source).outcome d = (.ok a, d') → a ∈ S
  complete : ∀ a ∈ S, ∃ draws : List Int, ∀ rest state asked, ∃ asked',
    (x Replay.source).outcome ⟨⟨draws ++ rest, state⟩, asked⟩ = (.ok a, ⟨⟨rest, state⟩, asked'⟩)

theorem covers_pure (a : α) : Covers (fun _ => (pure a : Drawing _ ε α)) {a} := by
  constructor
  · intro σ source d d' b h
    cases h
    exact rfl
  · rintro b rfl
    exact ⟨[], fun rest state asked => ⟨asked, rfl⟩⟩

theorem Covers.bind {x : ∀ {σ : Type}, Source σ → Drawing σ ε α}
    {k : ∀ {σ : Type}, Source σ → α → Drawing σ ε β} {S : Set α} {T : α → Set β} (h : Covers x S)
    (hk : ∀ a ∈ S, Covers (fun source => k source a) (T a)) :
    Covers (fun source => x source >>= k source) {b | ∃ a ∈ S, b ∈ T a} := by
  constructor
  · intro σ source d d'' b hb
    obtain ⟨a, d', ha, hb⟩ := outcome_bind_eq_ok hb
    have hmem := h.sound source ha
    exact ⟨a, hmem, (hk a hmem).sound source hb⟩
  · rintro b ⟨a, ha, hb⟩
    obtain ⟨draws, hdraws⟩ := h.complete a ha
    obtain ⟨more, hmore⟩ := (hk a ha).complete b hb
    -- What the first computation leaves behind begins with the draws of the second.
    refine ⟨draws ++ more, fun rest state asked => ?_⟩
    obtain ⟨asked', hx⟩ := hdraws (more ++ rest) state asked
    obtain ⟨asked'', hy⟩ := hmore rest state asked'
    rw [List.append_assoc]
    exact ⟨asked'', (outcome_bind hx).trans hy⟩

theorem Covers.mapError {x : ∀ {σ : Type}, Source σ → Drawing σ ε α} {S : Set α} (h : Covers x S)
    (φ : ε → ε') : Covers (fun source => (x source).mapError φ) S := by
  constructor
  · intro σ source d d' a ha
    exact h.sound source (outcome_mapError_eq_ok ha)
  · intro a ha
    obtain ⟨draws, hdraws⟩ := h.complete a ha
    refine ⟨draws, fun rest state asked => ?_⟩
    obtain ⟨asked', hx⟩ := hdraws rest state asked
    exact ⟨asked', outcome_mapError φ hx⟩

theorem covers_inRange (low high : Int) :
    Covers (fun source => inRange source low high) {n | low ≤ n ∧ n < high} := by
  constructor
  · intro σ source d d' n hn
    unfold inRange at hn
    split at hn
    · cases hn
    · next hlt =>
      have hpos : 0 < (high - low).toNat := by omega
      have hbelow := source.below_lt _ d.state hpos
      cases hn
      show low ≤ low + ((source.below (high - low).toNat d.state).1 : Int) ∧
        low + ((source.below (high - low).toNat d.state).1 : Int) < high
      omega
  · rintro n ⟨hlow, hhigh⟩
    refine ⟨[n - low], fun rest state asked => ⟨(high - low).toNat :: asked, ?_⟩⟩
    have hempty : ¬high ≤ low := by omega
    have hwidth : ((high - low).toNat : Int) = high - low := Int.toNat_of_nonneg (by omega)
    have hmod : (n - low) % ((high - low).toNat : Int) = n - low := by
      rw [hwidth]
      exact Int.emod_eq_of_lt (by omega) (by omega)
    have hdrawn : low + (((n - low) % ((high - low).toNat : Int)).toNat : Int) = n := by
      rw [hmod, Int.toNat_of_nonneg (by omega)]
      omega
    rw [inRange, if_neg hempty]
    show (Except.ok (low + (((n - low) % ((high - low).toNat : Int)).toNat : Int)), _) = _
    rw [hdrawn]
    rfl

theorem covers_element (items : List α) :
    Covers (fun source => element source items) {a | a ∈ items} := by
  have hset : {a | a ∈ items} =
      {a | ∃ i ∈ {i : Int | 0 ≤ i ∧ i < items.length}, a ∈ {a | items[i.toNat]? = some a}} := by
    ext a
    constructor
    · intro ha
      obtain ⟨n, hn, rfl⟩ := List.getElem_of_mem ha
      exact ⟨n, ⟨by omega, by omega⟩, by simp [hn]⟩
    · rintro ⟨i, -, hi⟩
      exact List.mem_of_getElem? hi
  rw [hset]
  refine (covers_inRange 0 items.length).bind fun i hi => ?_
  obtain ⟨hlow, hhigh⟩ := hi
  have hlt : i.toNat < items.length := by omega
  simp only [List.getElem?_eq_getElem hlt, Option.some.injEq]
  convert covers_pure (ε := EmptyRange) items[i.toNat] using 1
  ext a
  exact eq_comm

theorem Covers.repeatedOnto {x : ∀ {σ : Type}, Source σ → Drawing σ ε (List α)} {L : Language α}
    (h : Covers x L) (n : Nat) (parts : List (List α)) :
    Covers (fun source => repeatedOnto (x source) n parts)
      {s | ∃ t ∈ L ^ n, s = parts.reverse.flatten ++ t} := by
  -- The parts are in reverse order, so that the power grows at its front.
  induction n generalizing parts with
  | zero =>
    have hset : {s | ∃ t ∈ L ^ 0, s = parts.reverse.flatten ++ t} = {parts.reverse.flatten} := by
      ext s
      simp [Language.mem_one]
    rw [hset]
    exact covers_pure _
  | succ n ih =>
    have hset : {s | ∃ t ∈ L ^ (n + 1), s = parts.reverse.flatten ++ t} =
        {s | ∃ part ∈ L, s ∈ {s | ∃ t ∈ L ^ n, s = (part :: parts).reverse.flatten ++ t}} := by
      ext s
      simp only [pow_succ', Language.mem_mul, Set.mem_ofPred_eq, List.reverse_cons,
        List.flatten_append, List.flatten_singleton, List.append_assoc]
      constructor
      · rintro ⟨-, ⟨part, hpart, t, ht, rfl⟩, rfl⟩
        exact ⟨part, hpart, t, ht, rfl⟩
      · rintro ⟨part, hpart, t, ht, rfl⟩
        exact ⟨part ++ t, ⟨part, hpart, t, ht, rfl⟩, rfl⟩
    rw [hset]
    exact h.bind fun part _ => ih (part :: parts)

theorem Covers.repeated {x : ∀ {σ : Type}, Source σ → Drawing σ ε (List α)} {L : Language α}
    (h : Covers x L) (n : Nat) : Covers (fun source => repeated n (x source)) (L ^ n) := by
  have hall := h.repeatedOnto n []
  simp only [List.reverse_nil, List.flatten_nil, List.nil_append, exists_eq_right'] at hall
  exact hall

/-! ### Leaves -/

theorem covers_character (chars : Text) :
    Covers (fun source => character source chars) (oneOf (· ∈ chars)) :=
  ((covers_element chars).mapError _).bind fun c _ => covers_pure [c]

theorem covers_codeInRange {low high : Int} (hlow : 0 ≤ low) (hhigh : high ≤ 0x110000) :
    Covers (fun source => codeInRange source low high)
      (oneOf fun c => low ≤ c.val ∧ c.val < high) := by
  have hset : (oneOf fun c => low ≤ c.val ∧ c.val < high) =
      {s | ∃ n ∈ {n : Int | low ≤ n ∧ n < high}, s ∈ ({(CodePoint.ofNat? n.toNat).toList} : Set Text)} := by
    ext s
    constructor
    · rintro ⟨c, hc, rfl⟩
      exact ⟨c.val, hc, by simp⟩
    · rintro ⟨n, ⟨hfrom, hto⟩, rfl⟩
      obtain ⟨code, rfl⟩ := Int.eq_ofNat_of_zero_le (hlow.trans hfrom)
      have hcode : code < 0x110000 := by omega
      exact ⟨⟨code, hcode⟩, ⟨hfrom, hto⟩, by simp [CodePoint.ofNat?, hcode]⟩
  rw [hset]
  exact ((covers_inRange low high).mapError _).bind fun n _ => covers_pure _

theorem covers_decimalInRange {low high : Int}
    (hwritable : ∀ n, low ≤ n → n < high → n.natAbs < 10 ^ Numeral.maxDigits) :
    Covers (fun source => decimalInRange source low high)
      (numeralOf fun n => low ≤ n ∧ n < high) := by
  refine ((covers_inRange low high).mapError _).bind fun n hn => ?_
  obtain ⟨hlow, hhigh⟩ := hn
  have hwrite := Numeral.write_eq_ok_iff.mpr ⟨hwritable n hlow hhigh, rfl⟩
  rw [hwrite]
  exact covers_pure (Numeral.signed n)

end Drawing

open Drawing

theorem language_numeric : Atom.numeric.language = numeralOf fun n => 0 ≤ n ∧ n < 10 := by
  ext s
  constructor
  · rintro ⟨c, hc, rfl⟩
    have hdigits : ∀ c ∈ Text.ofString "0123456789", ∃ n ∈ List.range 10, Numeral.signed n = [c] := by
      decide
    obtain ⟨n, hn, hsigned⟩ := hdigits c hc
    rw [List.mem_range] at hn
    exact ⟨n, ⟨by omega, by omega⟩, hsigned.symm⟩
  · rintro ⟨n, ⟨hlow, hhigh⟩, rfl⟩
    have hdigits : ∀ n ∈ List.range 10, ∃ c ∈ Text.ofString "0123456789", Numeral.signed n = [c] := by
      decide
    obtain ⟨n, rfl⟩ := Int.eq_ofNat_of_zero_le hlow
    exact hdigits n (List.mem_range.mpr (by omega))

theorem Atom.covers_generate {atom : Atom} (h : atom.Spellable) :
    Covers (fun source => atom.generate source) atom.language := by
  cases atom with
  | literal text => exact covers_pure text
  | any =>
    have hset : Atom.any.language =
        oneOf fun c => Atom.printableStart ≤ c.val ∧ c.val < Atom.printableStop :=
      oneOf_congr fun c => by simp only [Atom.printableStart, Atom.printableStop]; omega
    rw [hset]
    exact covers_codeInRange (by decide) (by decide)
  | alpha uppercase => exact covers_character _
  | numeric =>
    rw [language_numeric]
    refine covers_decimalInRange fun n hlow hhigh => ?_
    have hten : 10 ^ 1 ≤ 10 ^ Numeral.maxDigits :=
      Nat.pow_le_pow_right (by decide) (Nat.le_of_ble_eq_true rfl)
    exact Nat.lt_of_lt_of_le (by omega) hten
  | symbol => exact covers_character _
  | basicSymbol => exact covers_character _
  | sampleSet chars hne => exact covers_character chars
  | range first last hle =>
    obtain ⟨hfirst, hlast⟩ := h
    have hset : (Atom.range first last hle).language = numeralOf fun n => first ≤ n ∧ n < last + 1 := by
      simp only [Int.lt_add_one_iff]
      rfl
    rw [hset]
    refine covers_decimalInRange fun n hlow hhigh => ?_
    omega
  | charRange first last hle =>
    have hset : (Atom.charRange first last hle).language =
        oneOf fun c => (first.val : Int) ≤ c.val ∧ (c.val : Int) < (last.val : Int) + 1 :=
      oneOf_congr fun c => by omega
    have hlast := last.isLt
    rw [hset]
    exact covers_codeInRange (by omega) (by omega)

/-! ### Trees -/

namespace Node

theorem covers_generateAll {nodes : List Node}
    (h : ∀ node ∈ nodes, Covers (fun source => node.generate source) node.language) :
    Covers (fun source => generateAll source nodes) (languageAll nodes) := by
  induction nodes with
  | nil => exact covers_pure []
  | cons node rest ih =>
    have hnode := h node List.mem_cons_self
    have hrest := ih fun other hother => h other (List.mem_cons_of_mem node hother)
    have hset : languageAll (node :: rest) =
        {s | ∃ first ∈ node.language,
          s ∈ {s | ∃ others ∈ languageAll rest, s ∈ ({first ++ others} : Set Text)}} := by
      ext s
      constructor
      · rintro ⟨first, hfirst, others, hothers, rfl⟩
        exact ⟨first, hfirst, others, hothers, rfl⟩
      · rintro ⟨first, hfirst, others, hothers, rfl⟩
        exact ⟨first, hfirst, others, hothers, rfl⟩
    rw [hset]
    exact hnode.bind fun first _ => hrest.bind fun others _ => covers_pure (first ++ others)

theorem generateAt_of_getElem {σ : Type} (source : Source σ) {nodes : List Node} {i : Nat} {node : Node}
    (h : nodes[i]? = some node) : generateAt source i nodes = node.generate source := by
  induction nodes generalizing i with
  | nil => cases h
  | cons first rest ih =>
    cases i with
    | zero =>
      obtain rfl := Option.some.inj h
      rfl
    | succ i => exact ih h

theorem covers_generateAny {nodes : List Node}
    (h : ∀ node ∈ nodes, Covers (fun source => node.generate source) node.language) :
    Covers (fun source => do
      let i ← (inRange source 0 nodes.length).mapError .empty
      generateAt source i.toNat nodes) (languageAny nodes) := by
  have hset : languageAny nodes = {s | ∃ i ∈ {i : Int | 0 ≤ i ∧ i < nodes.length},
      s ∈ {s | ∃ node, nodes[i.toNat]? = some node ∧ s ∈ node.language}} := by
    ext s
    rw [mem_languageAny]
    constructor
    · rintro ⟨node, hnode, hs⟩
      obtain ⟨i, hi, rfl⟩ := List.getElem_of_mem hnode
      exact ⟨i, ⟨by omega, by omega⟩, nodes[i], List.getElem?_eq_getElem hi, hs⟩
    · rintro ⟨i, -, node, hnode, hs⟩
      exact ⟨node, List.mem_of_getElem? hnode, hs⟩
  rw [hset]
  refine ((covers_inRange 0 nodes.length).mapError _).bind ?_
  rintro i ⟨hlow, hhigh⟩
  have hlt : i.toNat < nodes.length := by omega
  have hi := List.getElem?_eq_getElem hlt
  have hlanguage : {s | ∃ node, nodes[i.toNat]? = some node ∧ s ∈ node.language} =
      nodes[i.toNat].language := by
    ext s
    constructor
    · rintro ⟨node, hnode, hs⟩
      obtain rfl := Option.some.inj (hi.symm.trans hnode)
      exact hs
    · exact fun hs => ⟨_, hi, hs⟩
  simp only [generateAt_of_getElem _ hi, hlanguage]
  exact h _ (List.getElem_mem hlt)

mutual

/-- A node generates the texts of its language, if the numbers of its ranges can be written. -/
theorem covers_generate (node : Node) (h : node.EveryAtom Atom.Spellable) :
    Covers (fun source => node.generate source) node.language := by
  match node with
  | .leaf tag atom => exact (Atom.covers_generate h).repeated tag.repeatCount
  | .group tag .choice children =>
    exact (covers_generateAny (covers_generate_of_mem children h)).repeated tag.repeatCount
  | .group tag .sequence children =>
    exact (covers_generateAll (covers_generate_of_mem children h)).repeated tag.repeatCount
  | .group tag .root children =>
    exact (covers_generateAll (covers_generate_of_mem children h)).repeated tag.repeatCount

theorem covers_generate_of_mem (nodes : List Node) (h : EveryAtomAll Atom.Spellable nodes) :
    ∀ node ∈ nodes, Covers (fun source => node.generate source) node.language := by
  match nodes with
  | [] => nofun
  | first :: rest =>
    obtain ⟨hfirst, hrest⟩ := h
    exact List.forall_mem_cons.mpr ⟨covers_generate first hfirst, covers_generate_of_mem rest hrest⟩

end

end Node

/-- **Generating is sound and complete for the language of a pattern.** A text is generated from the
tree of a pattern by some source in some state if and only if it is in the language of the tree. -/
theorem generates_iff_mem_language (settings : Pattern.Settings) (pattern : Text) (root : Node)
    (hread : Pattern.read settings pattern = .ok root) (s : Text) :
    (∃ (σ : Type) (source : Source σ) (d d' : Draws σ),
      (root.generate source).outcome d = (.ok s, d')) ↔ s ∈ root.language := by
  have hroot := Pattern.wellFormed_of_read hread
  have hcovers := root.covers_generate (Node.everyAtom_of_wellFormed hroot)
  constructor
  · rintro ⟨σ, source, d, d', h⟩
    exact hcovers.sound source h
  · intro hs
    obtain ⟨draws, hdraws⟩ := hcovers.complete s hs
    obtain ⟨asked, h⟩ := hdraws [] 0 []
    exact ⟨Replay, Replay.source, _, _, h⟩

/-- A sample and a range of numbers: `y10` is in the language, so it is generated. -/
theorem generates_sample_range :
    ∃ root, Pattern.read {} "[xy]:9-11;" = .ok root ∧ Text.ofString "y10" ∈ root.language ∧
      ∃ (σ : Type) (source : Source σ) (d d' : Draws σ),
        (root.generate source).outcome d = (.ok (Text.ofString "y10"), d') := by
  let tree : Node := .group (.once none) .root
    [.leaf (.once none) (.sampleSet "xy" (by decide)), .leaf (.once none) (.range 9 11 (by decide))]
  have htree : (Pattern.read {} "[xy]:9-11;").toOption.map tree.same = some true := by
    decide +kernel
  cases hread : Pattern.read {} "[xy]:9-11;" with
  | error error =>
    rw [hread] at htree
    cases htree
  | ok root =>
    rw [hread] at htree
    have hlanguage := Node.language_of_same tree root (Option.some.inj htree)
    have hmem : Text.ofString "y10" ∈ root.language := by
      rw [← hlanguage]
      simp only [tree, Tag.once, Node.language, Node.languageAll, Atom.language, pow_one, mul_one]
      exact ⟨Text.ofString "y", ⟨CodePoint.ofChar 'y', by decide, rfl⟩, Numeral.signed 10,
        ⟨10, by decide, rfl⟩, by decide⟩
    exact ⟨root, rfl, hmem, (generates_iff_mem_language {} _ root hread _).mpr hmem⟩

end RandomText
