import RandomText.Proofs.Generation
import RandomText.Proofs.Language

/-!
# How long generated text is

The least and the greatest length of what a tree generates are computed from the tree alone
(`Node.extent`). They are those of the texts in its language (`IsExtent`), and since the tree generates
just these texts, both lengths are attained by some draws. A tree without a choice always asks for the
same bounds (`Asks`): no draw decides on what is drawn next.
-/

namespace RandomText

/-- One of the two ends of what is possible. -/
inductive Extreme where
  | least
  | greatest
deriving DecidableEq

namespace Extreme

/-- Towards this end, `n` does not go beyond `m`. -/
def Bounds : Extreme → Nat → Nat → Prop
  | least, m, n => m ≤ n
  | greatest, m, n => n ≤ m

/-- The number at this end of some numbers. -/
def among : Extreme → List Nat → Nat
  | least, ns => ns.min?.getD 0
  | greatest, ns => ns.max?.getD 0

variable {e : Extreme} {k l m n : Nat}

theorem Bounds.refl (e : Extreme) (n : Nat) : e.Bounds n n := by
  cases e <;> exact Nat.le_refl n

theorem Bounds.trans (h : e.Bounds l m) (h' : e.Bounds m n) : e.Bounds l n := by
  cases e with
  | least => exact Nat.le_trans h h'
  | greatest => exact Nat.le_trans h' h

theorem Bounds.add (h : e.Bounds k m) (h' : e.Bounds l n) : e.Bounds (k + l) (m + n) := by
  cases e <;> exact Nat.add_le_add h h'

theorem among_mem {ns : List Nat} (h : ns ≠ []) : e.among ns ∈ ns := by
  cases e with
  | least =>
    obtain ⟨m, hm⟩ := Option.isSome_iff_exists.mp (List.isSome_min?_of_ne_nil h)
    rw [among, hm]
    exact List.min?_mem hm
  | greatest =>
    obtain ⟨m, hm⟩ := Option.isSome_iff_exists.mp (List.isSome_max?_of_ne_nil h)
    rw [among, hm]
    exact List.max?_mem hm

theorem bounds_among {ns : List Nat} (h : n ∈ ns) : e.Bounds (e.among ns) n := by
  have hne := List.ne_nil_of_mem h
  cases e with
  | least =>
    obtain ⟨m, hm⟩ := Option.isSome_iff_exists.mp (List.isSome_min?_of_ne_nil hne)
    rw [among, hm]
    exact (List.min?_eq_some_iff.mp hm).2 n h
  | greatest =>
    obtain ⟨m, hm⟩ := Option.isSome_iff_exists.mp (List.isSome_max?_of_ne_nil hne)
    rw [among, hm]
    exact (List.max?_eq_some_iff.mp hm).2 n h

end Extreme

/-- The extreme length of one instance of a leaf. -/
def Atom.extent (e : Extreme) : Atom → Nat
  | literal text => text.length
  | range first last _ =>
    match e with
    | .least => (Numeral.digits first.natAbs).length
    | .greatest => (Numeral.digits last.natAbs).length
  | _ => 1

namespace Node

mutual

/-- The extreme length of what a node generates, all its repetitions included. -/
def extent (e : Extreme) : Node → Nat
  | leaf tag atom => tag.repeatCount * atom.extent e
  | group tag .choice children => tag.repeatCount * e.among (extents e children)
  | group tag _ children => tag.repeatCount * extentAll e children

/-- The extreme length of what the nodes generate, one after the other. -/
def extentAll (e : Extreme) : List Node → Nat
  | [] => 0
  | node :: rest => extent e node + extentAll e rest

def extents (e : Extreme) : List Node → List Nat
  | [] => []
  | node :: rest => extent e node :: extents e rest

end

theorem extents_eq_map (e : Extreme) (nodes : List Node) : extents e nodes = nodes.map (extent e) := by
  induction nodes with
  | nil => rfl
  | cons node rest ih => rw [extents, ih, List.map_cons]

end Node

/-! ### Lengths of the texts of a language -/

/-- The extreme length of the texts of a language. -/
structure IsExtent (e : Extreme) (L : Language CodePoint) (n : Nat) : Prop where
  bounds : ∀ s ∈ L, e.Bounds n s.length
  attained : ∃ s ∈ L, s.length = n

section languages

variable {e : Extreme} {L M : Language CodePoint} {m n : Nat}

theorem isExtent_singleton (e : Extreme) (t : Text) : IsExtent e {t} t.length where
  bounds := by
    rintro s rfl
    exact .refl e _
  attained := ⟨t, rfl, rfl⟩

theorem isExtent_oneOf (e : Extreme) {P : CodePoint → Prop} (h : ∃ c, P c) : IsExtent e (oneOf P) 1 where
  bounds := by
    rintro s ⟨c, -, rfl⟩
    exact .refl e 1
  attained := by
    obtain ⟨c, hc⟩ := h
    exact ⟨[c], ⟨c, hc, rfl⟩, rfl⟩

theorem IsExtent.mul (hL : IsExtent e L m) (hM : IsExtent e M n) : IsExtent e (L * M) (m + n) where
  bounds := by
    rintro - ⟨s, hs, t, ht, rfl⟩
    simp only [List.length_append]
    exact (hL.bounds s hs).add (hM.bounds t ht)
  attained := by
    obtain ⟨s, hs, rfl⟩ := hL.attained
    obtain ⟨t, ht, rfl⟩ := hM.attained
    exact ⟨s ++ t, ⟨s, hs, t, ht, rfl⟩, List.length_append⟩

theorem IsExtent.pow (h : IsExtent e L m) (n : Nat) : IsExtent e (L ^ n) (n * m) := by
  induction n with
  | zero =>
    rw [pow_zero, Nat.zero_mul]
    exact isExtent_singleton e []
  | succ n ih =>
    rw [pow_succ', Nat.succ_mul, Nat.add_comm]
    exact h.mul ih

end languages

theorem Numeral.length_digits_mono {m n : Nat} (h : m ≤ n) :
    (digits m).length ≤ (digits n).length := by
  have hpos : 0 < (Nat.toDigits 10 n).length := by
    rw [← List.length_map (f := CodePoint.ofChar)]
    exact List.length_pos_iff.mpr (digits_ne_nil n)
  simp only [digits, List.length_map]
  have hn := (Nat.length_toDigits_le_iff (by decide) hpos).mp (Nat.le_refl _)
  exact (Nat.length_toDigits_le_iff (by decide) hpos).mpr (Nat.lt_of_le_of_lt h hn)

theorem isExtent_range (e : Extreme) {first last : Int} (hle : first ≤ last) (hpos : 0 ≤ first) :
    IsExtent e (Atom.range first last hle).language ((Atom.range first last hle).extent e) := by
  obtain ⟨m, rfl⟩ := Int.eq_ofNat_of_zero_le hpos
  obtain ⟨n, rfl⟩ := Int.eq_ofNat_of_zero_le (Int.le_trans hpos hle)
  constructor
  · rintro - ⟨i, ⟨hfirst, hlast⟩, rfl⟩
    obtain ⟨k, rfl⟩ := Int.eq_ofNat_of_zero_le (Int.le_trans hpos hfirst)
    rw [Numeral.signed_natCast]
    cases e with
    | least => exact Numeral.length_digits_mono (Int.ofNat_le.mp hfirst)
    | greatest => exact Numeral.length_digits_mono (Int.ofNat_le.mp hlast)
  · cases e with
    | least =>
      refine ⟨Numeral.signed m, ⟨m, ⟨Int.le_refl _, hle⟩, rfl⟩, ?_⟩
      rw [Numeral.signed_natCast]
      rfl
    | greatest =>
      refine ⟨Numeral.signed n, ⟨n, ⟨hle, Int.le_refl _⟩, rfl⟩, ?_⟩
      rw [Numeral.signed_natCast]
      rfl

theorem Atom.isExtent_language (e : Extreme) {atom : Atom} (h : atom.Spellable) :
    IsExtent e atom.language (atom.extent e) := by
  cases atom with
  | literal text => exact isExtent_singleton e text
  | any => exact isExtent_oneOf e ⟨CodePoint.ofChar ' ', by decide⟩
  | alpha uppercase => exact isExtent_oneOf e (List.exists_mem_of_ne_nil _ (by cases uppercase <;> decide))
  | numeric => exact isExtent_oneOf e (List.exists_mem_of_ne_nil _ (by decide))
  | symbol => exact isExtent_oneOf e (List.exists_mem_of_ne_nil _ (by decide))
  | basicSymbol => exact isExtent_oneOf e (List.exists_mem_of_ne_nil _ (by decide))
  | sampleSet chars hne => exact isExtent_oneOf e (List.exists_mem_of_ne_nil _ hne)
  | range first last hle => exact isExtent_range e hle h.1
  | charRange first last hle => exact isExtent_oneOf e ⟨first, Nat.le_refl _, hle⟩

namespace Node

variable {e : Extreme} {nodes : List Node}

theorem isExtent_languageAll (h : ∀ node ∈ nodes, IsExtent e node.language (node.extent e)) :
    IsExtent e (languageAll nodes) (extentAll e nodes) := by
  induction nodes with
  | nil => exact isExtent_singleton e []
  | cons node rest ih =>
    obtain ⟨hnode, hrest⟩ := List.forall_mem_cons.mp h
    rw [languageAll, extentAll]
    exact hnode.mul (ih hrest)

theorem isExtent_languageAny (h : ∀ node ∈ nodes, IsExtent e node.language (node.extent e))
    (hne : nodes ≠ []) : IsExtent e (languageAny nodes) (e.among (extents e nodes)) := by
  rw [extents_eq_map]
  constructor
  · intro s hs
    obtain ⟨node, hnode, hs⟩ := mem_languageAny.mp hs
    exact (Extreme.bounds_among (List.mem_map_of_mem hnode)).trans ((h node hnode).bounds s hs)
  · have hmem : e.among (nodes.map (extent e)) ∈ nodes.map (extent e) :=
      Extreme.among_mem (by simpa using hne)
    obtain ⟨node, hnode, hextent⟩ := List.mem_map.mp hmem
    obtain ⟨s, hs, hlength⟩ := (h node hnode).attained
    exact ⟨s, mem_languageAny.mpr ⟨node, hnode, hs⟩, hlength.trans hextent⟩

mutual

/-- The extents of a node that may stand below the root are those of its language. -/
theorem isExtent_language (e : Extreme) (node : Node) (h : node.Nested) :
    IsExtent e node.language (node.extent e) := by
  match node, h with
  | .leaf tag atom, ⟨_, hatom⟩ => exact (Atom.isExtent_language e hatom).pow tag.repeatCount
  | .group tag .root children, ⟨_, hroot, _⟩ => exact absurd rfl hroot
  | .group tag .sequence children, ⟨_, _, _, hchildren⟩ =>
    exact (isExtent_languageAll (isExtent_of_mem e children hchildren)).pow tag.repeatCount
  | .group tag .choice children, ⟨_, _, hne, hchildren⟩ =>
    exact (isExtent_languageAny (isExtent_of_mem e children hchildren) (hne rfl)).pow tag.repeatCount

theorem isExtent_of_mem (e : Extreme) (nodes : List Node) (h : NestedAll nodes) :
    ∀ node ∈ nodes, IsExtent e node.language (node.extent e) := by
  match nodes, h with
  | [], _ => nofun
  | first :: rest, ⟨hfirst, hrest⟩ =>
    exact List.forall_mem_cons.mpr ⟨isExtent_language e first hfirst, isExtent_of_mem e rest hrest⟩

end

end Node

/-! ### The bounds that are asked for -/

namespace Drawing

variable {σ ε ε' α β : Type} {more others : List Nat}

/-- Where the computation succeeds, it has asked for the bounds `more`, latest first. -/
def Asks (more : List Nat) (x : Drawing σ ε α) : Prop :=
  ∀ d d' a, x.outcome d = (.ok a, d') → d'.asked = more ++ d.asked

theorem asks_pure (a : α) : Asks [] (pure a : Drawing σ ε α) := by
  intro d d' b h
  cases h
  rfl

theorem Asks.bind {x : Drawing σ ε α} {k : α → Drawing σ ε β} (h : Asks more x)
    (hk : ∀ a, Asks others (k a)) : Asks (others ++ more) (x >>= k) := by
  intro d d'' b hb
  obtain ⟨a, d', hx, hy⟩ := outcome_bind_eq_ok hb
  rw [hk a d' d'' b hy, h d d' a hx, List.append_assoc]

theorem Asks.mapError {x : Drawing σ ε α} (h : Asks more x) (φ : ε → ε') :
    Asks more (x.mapError φ) := by
  intro d d' a ha
  exact h d d' a (outcome_mapError_eq_ok ha)

theorem asks_inRange (source : Source σ) (low high : Int) :
    Asks [(high - low).toNat] (inRange source low high) := by
  intro d d' n hn
  unfold inRange at hn
  split at hn
  · cases hn
  · cases hn
    rfl

theorem Asks.repeated {x : Drawing σ ε (List α)} (h : Asks more x) (n : Nat) :
    Asks (List.replicate n more).flatten (repeated n x) := by
  induction n with
  | zero => exact asks_pure _
  | succ n ih =>
    rw [repeated_succ, List.replicate_succ', List.flatten_append, List.flatten_singleton]
    apply h.bind
    intro first
    exact ih.bind fun _ => asks_pure _

theorem asks_ofExcept (r : Except ε α) : Asks [] (ofExcept r : Drawing σ ε α) := by
  intro d d' a h
  cases h
  rfl

theorem asks_codeInRange (source : Source σ) (low high : Int) :
    Asks [(high - low).toNat] (codeInRange source low high) :=
  ((asks_inRange source low high).mapError _).bind fun _ => asks_pure _

theorem asks_decimalInRange (source : Source σ) (low high : Int) :
    Asks [(high - low).toNat] (decimalInRange source low high) :=
  ((asks_inRange source low high).mapError _).bind fun _ => (asks_ofExcept _).mapError _

theorem asks_element (source : Source σ) (items : List α) :
    Asks [items.length] (element source items) := by
  intro d d'' a ha
  obtain ⟨i, d', hi, ha⟩ := outcome_bind_eq_ok ha
  have hasked := asks_inRange source 0 items.length d d' i hi
  rw [Int.sub_zero, Int.toNat_natCast] at hasked
  split at ha <;> cases ha
  exact hasked

theorem asks_character (source : Source σ) (chars : Text) :
    Asks [chars.length] (character source chars) :=
  ((asks_element source chars).mapError _).bind fun _ => asks_pure _

end Drawing

open Drawing

theorem Atom.exists_asks (atom : Atom) :
    ∃ more, ∀ (σ : Type) (source : Source σ), Asks more (atom.generate source) := by
  cases atom with
  | literal text => exact ⟨_, fun _ _ => asks_pure text⟩
  | any => exact ⟨_, fun _ source => asks_codeInRange source _ _⟩
  | alpha uppercase => exact ⟨_, fun _ source => asks_character source _⟩
  | numeric => exact ⟨_, fun _ source => asks_decimalInRange source _ _⟩
  | symbol => exact ⟨_, fun _ source => asks_character source _⟩
  | basicSymbol => exact ⟨_, fun _ source => asks_character source _⟩
  | sampleSet chars _ => exact ⟨_, fun _ source => asks_character source chars⟩
  | range first last _ => exact ⟨_, fun _ source => asks_decimalInRange source _ _⟩
  | charRange first last _ => exact ⟨_, fun _ source => asks_codeInRange source _ _⟩

namespace Node

/-- Whether the node is a choice. -/
def isChoice : Node → Bool
  | group _ .choice _ => true
  | _ => false

mutual

theorem exists_asks (node : Node) (h : ∀ inner ∈ node.preorder, inner.isChoice = false) :
    ∃ more, ∀ (σ : Type) (source : Source σ), Asks more (node.generate source) := by
  match node with
  | .leaf tag atom =>
    obtain ⟨more, hmore⟩ := Atom.exists_asks atom
    exact ⟨_, fun σ source => (hmore σ source).repeated tag.repeatCount⟩
  | .group tag .root children =>
    obtain ⟨more, hmore⟩ := exists_asksAll children (List.forall_mem_cons.mp h).2
    exact ⟨_, fun σ source => (hmore σ source).repeated tag.repeatCount⟩
  | .group tag .sequence children =>
    obtain ⟨more, hmore⟩ := exists_asksAll children (List.forall_mem_cons.mp h).2
    exact ⟨_, fun σ source => (hmore σ source).repeated tag.repeatCount⟩
  | .group tag .choice children => exact absurd (List.forall_mem_cons.mp h).1 nofun

theorem exists_asksAll (nodes : List Node) (h : ∀ inner ∈ preorderAll nodes, inner.isChoice = false) :
    ∃ more, ∀ (σ : Type) (source : Source σ), Asks more (generateAll source nodes) := by
  match nodes with
  | [] => exact ⟨_, fun _ _ => asks_pure []⟩
  | node :: rest =>
    obtain ⟨hnode, hrest⟩ := List.forall_mem_append.mp h
    obtain ⟨more, hmore⟩ := exists_asks node hnode
    obtain ⟨others, hothers⟩ := exists_asksAll rest hrest
    refine ⟨([] ++ others) ++ more, ?_⟩
    intro σ source
    apply (hmore σ source).bind
    intro first
    exact (hothers σ source).bind fun _ => asks_pure _

end

theorem isExtent_root (e : Extreme) {root : Node} {limit : Nat} (h : root.WellFormed limit) :
    IsExtent e root.language (root.extent e) := by
  match root, h with
  | .group tag .root children, ⟨_, hnested, _⟩ =>
    exact (isExtent_languageAll (isExtent_of_mem e children hnested)).pow tag.repeatCount

end Node

/-- **The pattern bounds the length of what it generates.** From every source in every state the tree
of a pattern generates a text of a length between its extents, and each of the two is the length of a
text that is generated from some source. So all texts have the same length exactly if the extents
coincide. Without a choice in the tree every source is asked for the same bounds. -/
theorem length_generate (settings : Pattern.Settings) (pattern : Text) (root : Node)
    (hread : Pattern.read settings pattern = .ok root) :
    (∀ (σ : Type) (source : Source σ) (d : Draws σ), ∃ text d',
      (root.generate source).outcome d = (.ok text, d') ∧
        root.extent .least ≤ text.length ∧ text.length ≤ root.extent .greatest) ∧
    (∀ e, ∃ (σ : Type) (source : Source σ) (d : Draws σ) (text : Text) (d' : Draws σ),
      (root.generate source).outcome d = (.ok text, d') ∧ text.length = root.extent e) ∧
    ((∃ n, ∀ (σ : Type) (source : Source σ) (d d' : Draws σ) (text : Text),
      (root.generate source).outcome d = (.ok text, d') → text.length = n) ↔
      root.extent .least = root.extent .greatest) ∧
    ((∀ node ∈ root.preorder, node.isChoice = false) →
      ∃ bounds, ∀ (σ : Type) (source : Source σ) (state : σ), ∃ text d',
        (root.generate source).outcome (.start state) = (.ok text, d') ∧ d'.bounds = bounds) := by
  have hroot := Pattern.wellFormed_of_read hread
  have hcovers := root.covers_generate (Node.everyAtom_of_wellFormed hroot)
  have hextent : ∀ e, IsExtent e root.language (root.extent e) := by
    intro e
    exact Node.isExtent_root e hroot
  have hbounds : ∀ (σ : Type) (source : Source σ) (d d' : Draws σ) (text : Text),
      (root.generate source).outcome d = (.ok text, d') →
        root.extent .least ≤ text.length ∧ text.length ≤ root.extent .greatest := by
    intro σ source d d' text h
    have hmem := hcovers.sound source h
    exact ⟨(hextent .least).bounds text hmem, (hextent .greatest).bounds text hmem⟩
  have hattained : ∀ e, ∃ (σ : Type) (source : Source σ) (d : Draws σ) (text : Text) (d' : Draws σ),
      (root.generate source).outcome d = (.ok text, d') ∧ text.length = root.extent e := by
    intro e
    obtain ⟨text, hmem, hlength⟩ := (hextent e).attained
    obtain ⟨draws, hdraws⟩ := hcovers.complete text hmem
    obtain ⟨asked, h⟩ := hdraws [] 0 []
    exact ⟨Replay, Replay.source, _, text, _, h, hlength⟩
  refine ⟨?_, hattained, ⟨?_, ?_⟩, ?_⟩
  · intro σ source d
    obtain ⟨text, state', more, -, h⟩ := Node.completes_root source hroot d.state
    exact ⟨text, _, h d.asked, hbounds σ source d _ text (h d.asked)⟩
  · rintro ⟨n, hn⟩
    obtain ⟨σ, source, d, text, d', h, hleast⟩ := hattained .least
    obtain ⟨σ', source', e, text', e', h', hgreatest⟩ := hattained .greatest
    rw [← hleast, ← hgreatest, hn σ source d d' text h, hn σ' source' e e' text' h']
  · intro hsame
    refine ⟨root.extent .least, ?_⟩
    intro σ source d d' text h
    have hlength := hbounds σ source d d' text h
    omega
  · intro hchoice
    obtain ⟨more, hasks⟩ := root.exists_asks hchoice
    refine ⟨more.reverse, ?_⟩
    intro σ source state
    obtain ⟨text, state', asked, -, h⟩ := Node.completes_root source hroot state
    refine ⟨text, _, h [], ?_⟩
    have hasked := hasks σ source (.start state) _ text (h [])
    rw [Draws.bounds, hasked]
    exact congrArg List.reverse (List.append_nil more)

/-- Repeated ranges beside a literal: the text has between six and ten characters, and every source is
asked for the same two bounds. -/
theorem length_generate_ranges :
    ∃ root, Pattern.read {} "\"ab\"(:7-120;\"-\")<2>" = .ok root ∧
      root.extent .least = 6 ∧ root.extent .greatest = 10 ∧
      (∀ node ∈ root.preorder, node.isChoice = false) ∧
      (∀ (σ : Type) (source : Source σ) (d : Draws σ), ∃ text d',
        (root.generate source).outcome d = (.ok text, d') ∧ 6 ≤ text.length ∧ text.length ≤ 10) ∧
      ∃ bounds, ∀ (σ : Type) (source : Source σ) (state : σ), ∃ text d',
        (root.generate source).outcome (.start state) = (.ok text, d') ∧ d'.bounds = bounds := by
  have hfacts : (Pattern.read {} "\"ab\"(:7-120;\"-\")<2>").toOption.map (fun root =>
      (root.extent .least, root.extent .greatest, root.preorder.all fun node => !node.isChoice)) =
        some (6, 10, true) := by decide +kernel
  cases hread : Pattern.read {} "\"ab\"(:7-120;\"-\")<2>" with
  | error error =>
    rw [hread] at hfacts
    cases hfacts
  | ok root =>
    rw [hread] at hfacts
    obtain ⟨hleast, hrest⟩ := Prod.mk.inj (Option.some.inj hfacts)
    obtain ⟨hgreatest, hall⟩ := Prod.mk.inj hrest
    have hchoice : ∀ node ∈ root.preorder, node.isChoice = false := by simpa using hall
    obtain ⟨hbounds, -, -, hasks⟩ := length_generate {} _ root hread
    rw [hleast, hgreatest] at hbounds
    exact ⟨root, rfl, hleast, hgreatest, hchoice, hbounds, hasks hchoice⟩

end RandomText
