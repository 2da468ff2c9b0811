import RandomText.Proofs.Except
import RandomText.Proofs.Pattern.WellFormed

/-!
# Spelling trees

The spelling of a well-formed tree as pattern text. A node is spelt in the same way in every frame,
and the reader knows where the spelling ends, whatever follows it: reading on from the spelling
pushes the node, up to positions, on the top frame and goes on behind it (`leadsTo_spelling`).
-/

namespace RandomText

/-- The text with a backslash before each backslash and each of the `stops`. -/
def Text.guarded (stops : List CodePoint) (t : Text) : Text :=
  t.flatMap fun (c : CodePoint) => if c = '\\' ∨ c ∈ stops then ['\\', c] else [c]

namespace Atom

/-- The bounds of a range with a dash between them. -/
def bounds : Atom → Text
  | range first last _ => Numeral.digits first.toNat ++ CodePoint.ofChar '-' :: Numeral.digits last.toNat
  | charRange first last _ => [first, '-', last]
  | _ => []

/-- The bounds of ranges, each with a colon before it. -/
def rangeSpelling (atoms : List Atom) : Text :=
  (atoms.flatMap fun atom => CodePoint.ofChar ':' :: atom.bounds.guarded Pattern.Token.segmentStops) ++
    [CodePoint.ofChar ';']

def spelling : Atom → Text
  | literal text => '"' :: (text.guarded ['"'] ++ [CodePoint.ofChar '"'])
  | any => ['.']
  | alpha false => ['a']
  | alpha true => ['A']
  | numeric => ['#']
  | symbol => ['@']
  | basicSymbol => ['$']
  | sampleSet chars _ => '[' :: (chars.guarded [']'] ++ [CodePoint.ofChar ']'])
  | range first last h => rangeSpelling [range first last h]
  | charRange first last h => rangeSpelling [charRange first last h]

end Atom

namespace Node

/-- What stands behind a node that is repeated. -/
def repetition (count : Nat) : Text :=
  if count = 1 then [] else '<' :: (Numeral.digits count ++ [CodePoint.ofChar '>'])

/-- A text between the brackets of a group; the root has none. -/
def bracketed (kind : GroupKind) (inner : Text) : Text :=
  match kind with
  | .root => inner
  | .sequence => '(' :: (inner ++ [CodePoint.ofChar ')'])
  | .choice => '\x7b' :: (inner ++ [CodePoint.ofChar '\x7d'])

mutual

/-- The pattern text of a node. -/
def spelling : Node → Text
  | leaf tag atom => atom.spelling ++ repetition tag.repeatCount
  | group tag kind children =>
    (if isRangeBlock kind children then Atom.rangeSpelling (children.filterMap segment?)
      else bracketed kind (spellingAll children)) ++ repetition tag.repeatCount

def spellingAll : List Node → Text
  | [] => []
  | node :: rest => spelling node ++ spellingAll rest

end

end Node

namespace Pattern

/-! ### Guarded text -/

section upTo

variable {stops : List CodePoint} {stop c : CodePoint}

theorem upTo_stop (h : stop ∈ stops) (rest : Text) :
    Token.upTo stops (stop :: rest) = some ⟨[], stop, 0⟩ := by
  rw [Token.upTo.eq_def]
  exact if_pos h

theorem upTo_escaped (h : CodePoint.ofChar '\\' ∉ stops) (rest : Text) :
    Token.upTo stops (CodePoint.ofChar '\\' :: c :: rest) =
      (Token.upTo stops rest).map fun e => ⟨c :: e.text, e.stop, e.width + 2⟩ := by
  rw [Token.upTo, if_neg h, if_pos rfl]

theorem upTo_plain (h : c ∉ stops) (hslash : c ≠ '\\') (rest : Text) :
    Token.upTo stops (c :: rest) =
      (Token.upTo stops rest).map fun e => ⟨c :: e.text, e.stop, e.width + 1⟩ := by
  rw [Token.upTo.eq_def]
  show (if c ∈ stops then _ else if c = CodePoint.ofChar '\\' then _ else _) = _
  rw [if_neg h, if_neg hslash]

theorem guarded_cons (t : Text) : Text.guarded stops (c :: t) =
    (if c = CodePoint.ofChar '\\' ∨ c ∈ stops then [CodePoint.ofChar '\\', c] else [c]) ++
      t.guarded stops := List.flatMap_cons

theorem upTo_guarded (hstop : stop ∈ stops) (hback : CodePoint.ofChar '\\' ∉ stops)
    (t rest : Text) : Token.upTo stops (t.guarded stops ++ stop :: rest) =
      some ⟨t, stop, (t.guarded stops).length⟩ := by
  induction t with
  | nil => exact upTo_stop hstop rest
  | cons c t ih =>
    rw [guarded_cons]
    by_cases hc : c = '\\' ∨ c ∈ stops
    · rw [if_pos hc, List.append_assoc, List.cons_append, List.singleton_append,
        upTo_escaped hback, ih]
      rfl
    · rw [if_neg hc, List.append_assoc, List.singleton_append,
        upTo_plain (not_or.mp hc).2 (not_or.mp hc).1, ih]
      rfl

theorem guarded_of_plain {t : Text} (h : ∀ c ∈ t, c ≠ '\\' ∧ c ∉ stops) : t.guarded stops = t := by
  induction t with
  | nil => rfl
  | cons c t ih =>
    obtain ⟨⟨hslash, hmem⟩, ht⟩ := List.forall_mem_cons.mp h
    rw [guarded_cons, if_neg (not_or.mpr ⟨hslash, hmem⟩), ih ht, List.singleton_append]

theorem guarded_run {run : Text} (hrun : ∀ c ∈ run, c.isDigit = true) :
    run.guarded [CodePoint.ofChar '>'] = run := by
  apply guarded_of_plain
  intro c hc
  have hdigit := hrun c hc
  constructor
  · rintro rfl
    exact absurd hdigit (by decide)
  · intro hmem
    obtain rfl := List.mem_singleton.mp hmem
    exact absurd hdigit (by decide)

end upTo

/-! ### Ranges -/

theorem split?_append {c : CodePoint} {front : Text} (h : c ∉ front) (back : Text) :
    Text.split? c (front ++ c :: back) = some (front, back) := by
  induction front with
  | nil => rw [List.nil_append, Text.split?, if_pos rfl]
  | cons d front ih =>
    obtain ⟨hne, hfront⟩ := not_or.mp (List.mem_cons.not.mp h)
    rw [List.cons_append, Text.split?, if_neg (Ne.symm hne), ih hfront]
    rfl

theorem divide?_append {front back : Text} (hfront : CodePoint.ofChar '-' ∉ front) :
    front ≠ [] → back ≠ [] →
      Token.divide? (front ++ CodePoint.ofChar '-' :: back) = some (front, back) := by
  intro hfront_ne hback_ne
  have hsplit := split?_append hfront back
  match front, back, hfront_ne, hback_ne with
  | [x], [y], _, _ => rfl
  | [x], y :: z :: back, _, _ => exact hsplit
  | [x, y], [z], _, _ => exact hsplit
  | [x, y], z :: w :: back, _, _ => exact hsplit
  | [x, y, z], back, _, _ => exact hsplit
  | x :: y :: z :: w :: front, back, _, _ => exact hsplit

theorem not_dash_of_mem_digits (n : Nat) : CodePoint.ofChar '-' ∉ Numeral.digits n := by
  intro h
  have hdigit := Numeral.isDigit_of_mem_digits h
  revert hdigit
  decide

theorem segment_bounds {atom : Atom} (hrange : atom.isRange = true) (h : atom.Spellable)
    (index : Nat) : Token.segment index atom.bounds = .ok atom := by
  cases atom with
  | range first last hle =>
    obtain ⟨hpos, hlast⟩ := h
    obtain ⟨a, rfl⟩ := Int.eq_ofNat_of_zero_le hpos
    obtain ⟨b, rfl⟩ := Int.eq_ofNat_of_zero_le (Int.le_trans hpos hle)
    have hab : a ≤ b := Int.ofNat_le.mp hle
    rw [Int.toNat_natCast] at hlast
    show Token.segment index (Numeral.digits a ++ CodePoint.ofChar '-' :: Numeral.digits b) = _
    rw [Token.segment, divide?_append (not_dash_of_mem_digits a) (Numeral.digits_ne_nil a)
      (Numeral.digits_ne_nil b)]
    simp only [Numeral.isDecimal_digits, if_true, Token.numberRange, Numeral.read_digits hlast,
      Numeral.read_digits (Nat.lt_of_le_of_lt hab hlast)]
    exact dif_neg (Nat.not_lt.mpr hab)
  | charRange first last hle =>
    have hdecimal : ¬Numeral.isDecimal [first] = true := by
      rw [Numeral.isDecimal_singleton, show first.isDigit = false from h]
      decide
    show Token.segment index [first, '-', last] = _
    simp only [Token.segment, Token.divide?, if_true]
    rw [if_neg hdecimal, Token.charRange, dif_neg (Nat.not_lt.mpr hle)]
    rfl
  | _ => cases hrange

theorem rangeSpelling_cons (atom : Atom) (others : List Atom) :
    Atom.rangeSpelling (atom :: others) = CodePoint.ofChar ':' ::
      (atom.bounds.guarded Token.segmentStops ++ Atom.rangeSpelling others) := by
  rw [Atom.rangeSpelling, Atom.rangeSpelling, List.flatMap_cons, List.cons_append, List.cons_append,
    List.append_assoc]

theorem segments_bounds (atom : Atom) (others : List Atom)
    (h : ∀ a ∈ atom :: others, a.isRange = true ∧ a.Spellable) (index : Nat) :
    ∃ leaves : List (Nat × Atom), leaves.map Prod.snd = atom :: others ∧ ∀ rest : Text,
      Token.segments index
          (atom.bounds.guarded Token.segmentStops ++ (Atom.rangeSpelling others ++ rest)) =
        (leaves, .ok (index + (atom.bounds.guarded Token.segmentStops).length +
          (Atom.rangeSpelling others).length)) := by
  have hback : CodePoint.ofChar '\\' ∉ Token.segmentStops := by decide
  have hgoOn : CodePoint.ofChar ':' ∈ Token.segmentStops := by decide
  have hend : CodePoint.ofChar ';' ∈ Token.segmentStops := by decide
  induction others generalizing atom index with
  | nil =>
    obtain ⟨hrange, hspellable⟩ := h atom List.mem_cons_self
    have hsegment := segment_bounds hrange hspellable index
    refine ⟨[(index, atom)], rfl, fun rest => ?_⟩
    have hupTo := upTo_guarded hend hback atom.bounds rest
    exact (segments_of_upTo hupTo hsegment).trans (if_pos rfl)
  | cons other others ih =>
    obtain ⟨hrange, hspellable⟩ := h atom List.mem_cons_self
    have hothers : ∀ a ∈ other :: others, a.isRange = true ∧ a.Spellable :=
      fun a ha => h a (List.mem_cons_of_mem _ ha)
    obtain ⟨leaves, hleaves, hread⟩ := ih other hothers
      (index + (atom.bounds.guarded Token.segmentStops).length + 1)
    have hsegment := segment_bounds hrange hspellable index
    refine ⟨(index, atom) :: leaves, by rw [List.map_cons, hleaves], fun rest => ?_⟩
    have hupTo := upTo_guarded hgoOn hback atom.bounds
      (other.bounds.guarded Token.segmentStops ++ (Atom.rangeSpelling others ++ rest))
    rw [rangeSpelling_cons, List.cons_append, List.append_assoc,
      segments_of_upTo hupTo hsegment]
    refine (if_neg (by show CodePoint.ofChar ':' ≠ ';'; decide)).trans ?_
    simp only [List.drop_length_add_append, List.drop_succ_cons, List.drop_zero, hread,
      List.length_cons, List.length_append]
    congr 2
    omega

/-! ### Reading on -/

/-- Reading a text that begins with `text` leads from `p` to `q`, whatever follows. -/
def LeadsTo (settings : Settings) (input : Text) (p : Progress) (index : Nat) (text : Text)
    (q : Progress) : Prop :=
  ∀ rest, resume settings input p index (text ++ rest) =
    resume settings input q (index + text.length) rest

/-- `q` is `p` with more nodes in the top frame, the latest of them perhaps repeated. -/
structure Progress.Extends (p : Progress) (nodes : List Node) (q : Progress) : Prop where
  kind : q.top.kind = p.top.kind
  start : q.top.start = p.top.start
  latest : q.top.latest = nodes.reverse ++ p.top.latest
  below : q.below = p.below
  repeatedWithin : q.top.RepeatedWithin

section reading

variable {settings : Settings} {input : Text} {p q r : Progress} {index : Nat}

theorem LeadsTo.nil : LeadsTo settings input p index [] p := fun _ => rfl

theorem LeadsTo.trans {s t : Text} (hs : LeadsTo settings input p index s q)
    (ht : LeadsTo settings input q (index + s.length) t r) :
    LeadsTo settings input p index (s ++ t) r := by
  intro rest
  rw [List.append_assoc, hs, ht, List.length_append, Nat.add_assoc]

theorem LeadsTo.congr {t : Text} (h : LeadsTo settings input p index t q) (halike : q.Alike r) :
    LeadsTo settings input p index t r := by
  intro rest
  rw [h rest]
  exact resume_congr halike _ _

theorem LeadsTo.token {c : CodePoint} {t : Text} {token : Token}
    (hfirst : ∀ rest, Token.first index c (t ++ rest) = .ok ⟨index, token, index + (t.length + 1)⟩)
    (hstep : ∀ stop, p.step settings input ⟨index, token, stop⟩ = .ok q) :
    LeadsTo settings input p index (c :: t) q := by
  intro rest
  have hdrop : index + (t.length + 1) - (index + 1) = t.length := by omega
  rw [List.cons_append, resume_of_ok (hfirst rest), Progress.stepped, hstep]
  simp only [hdrop, List.drop_left, List.length_cons]
  rfl

theorem enclosed_guarded (index : Nat) {stop : CodePoint} (hstop : stop ≠ '\\')
    (make : Text → Except ReadError Token) (text rest : Text) :
    Token.enclosed index stop make (text.guarded [stop] ++ stop :: rest) =
      (make text).bimap (fun error => ⟨index, error, index + 1 + (text.guarded [stop]).length + 1, none⟩)
        fun token => ⟨index, token, index + 1 + (text.guarded [stop]).length + 1⟩ := by
  have hback : CodePoint.ofChar '\\' ∉ [stop] := by
    rw [List.mem_singleton]
    exact Ne.symm hstop
  simp only [Token.enclosed, upTo_guarded (List.mem_singleton_self stop) hback]
  cases make text <;> rfl

theorem LeadsTo.enclosed {c stop : CodePoint} {make : Text → Except ReadError Token} {text : Text}
    {token : Token} (hfirst : ∀ t, Token.first index c t = Token.enclosed index stop make t)
    (hstop : stop ≠ '\\') (hmake : make text = .ok token)
    (hstep : ∀ stop, p.step settings input ⟨index, token, stop⟩ = .ok q) :
    LeadsTo settings input p index (c :: (text.guarded [stop] ++ [stop])) q := by
  refine .token (fun rest => ?_) hstep
  have hlength : index + 1 + (text.guarded [stop]).length + 1 =
      index + ((text.guarded [stop] ++ [stop]).length + 1) := by
    rw [List.length_append, List.length_singleton]
    omega
  rw [hfirst, List.append_assoc, List.singleton_append, enclosed_guarded index hstop, hmake, ← hlength]
  rfl

theorem Progress.Extends.refl (h : p.top.RepeatedWithin) : p.Extends [] p :=
  ⟨rfl, rfl, rfl, rfl, h⟩

theorem Progress.Extends.push (h : p.top.RepeatedWithin) (node : Node) :
    p.Extends [node] (p.push node) :=
  ⟨rfl, rfl, rfl, rfl, fun k hk => Nat.lt_succ_of_lt (h k hk)⟩

theorem Progress.Extends.trans {xs ys : List Node} (hq : p.Extends xs q) (hr : q.Extends ys r) :
    p.Extends (xs ++ ys) r where
  kind := hr.kind.trans hq.kind
  start := hr.start.trans hq.start
  latest := by rw [hr.latest, hq.latest, List.reverse_append, List.append_assoc]
  below := hr.below.trans hq.below
  repeatedWithin := hr.repeatedWithin

theorem Progress.Extends.depth_eq {nodes : List Node} (h : p.Extends nodes q) :
    q.depth = p.depth := by
  simp only [Progress.depth, Progress.frames, List.filter_cons, h.kind, h.below]
  split <;> rfl

theorem leadsTo_rangeSpelling (settings : Settings) (input : Text) (p : Progress) (index : Nat)
    (atom : Atom) (others : List Atom)
    (h : ∀ a ∈ atom :: others, a.isRange = true ∧ a.Spellable) :
    ∃ leaves : List (Nat × Atom), leaves.map Prod.snd = atom :: others ∧
      LeadsTo settings input p index (Atom.rangeSpelling (atom :: others))
        (p.push (FrameKind.range.close (settings.at input index)
          (Progress.segmentNodes settings input leaves))) := by
  obtain ⟨leaves, hleaves, hread⟩ := segments_bounds atom others h (index + 1)
  refine ⟨leaves, hleaves, ?_⟩
  rw [rangeSpelling_cons]
  have htoken : LeadsTo settings input p index
      (CodePoint.ofChar ':' ::
        (atom.bounds.guarded Token.segmentStops ++ Atom.rangeSpelling others))
      (p.addRange settings input leaves index) := by
    have hstep : ∀ stop, p.step settings input ⟨index, .range leaves, stop⟩ =
      .ok (p.addRange settings input leaves index) := fun _ => rfl
    refine .token (fun rest => ?_) hstep
    have hfirst : ∀ t, Token.first index ':' t = Token.rangeOf index t := fun _ => rfl
    rw [hfirst, Token.rangeOf, List.append_assoc, hread, List.length_append]
    show Except.ok _ = Except.ok _
    congr 2
    omega
  exact htoken.congr ⟨rfl, rfl⟩

theorem leadsTo_range (p : Progress) (index : Nat) {atom : Atom} (hrange : atom.isRange = true)
    (h : atom.Spellable) :
    ∃ position, LeadsTo settings input p index (Atom.rangeSpelling [atom])
      (p.push (.leaf (.once position) atom)) := by
  obtain ⟨leaves, hleaves, hread⟩ := leadsTo_rangeSpelling settings input p index atom []
    (fun a ha => by rw [List.mem_singleton.mp ha]; exact ⟨hrange, h⟩)
  match leaves, hleaves with
  | [leaf], hleaf =>
    obtain rfl := List.singleton_inj.mp hleaf
    exact ⟨_, hread⟩

theorem leadsTo_atom (settings : Settings) (input : Text) (p : Progress) (index : Nat) {atom : Atom}
    (h : atom.Spellable) :
    ∃ position, LeadsTo settings input p index atom.spelling
      (p.push (.leaf (.once position) atom)) := by
  have hstep : ∀ stop, p.step settings input ⟨index, .atom atom, stop⟩ =
    .ok (p.push (.leaf (.once (settings.at input index)) atom)) := fun _ => rfl
  cases atom with
  | literal text =>
    have hfirst : ∀ t, Token.first index '"' t =
      Token.enclosed index '"' (fun text => return .atom (.literal text)) t := fun _ => rfl
    exact ⟨_, .enclosed hfirst (by decide) rfl hstep⟩
  | sampleSet chars hne => exact ⟨_, .enclosed (fun _ => rfl) (by decide) (dif_neg hne) hstep⟩
  | range first last hle => exact leadsTo_range p index rfl h
  | charRange first last hle => exact leadsTo_range p index rfl h
  | alpha uppercase =>
    cases uppercase
    · exact ⟨_, .token (fun _ => rfl) hstep⟩
    · exact ⟨_, .token (fun _ => rfl) hstep⟩
  | any => exact ⟨_, .token (fun _ => rfl) hstep⟩
  | numeric => exact ⟨_, .token (fun _ => rfl) hstep⟩
  | symbol => exact ⟨_, .token (fun _ => rfl) hstep⟩
  | basicSymbol => exact ⟨_, .token (fun _ => rfl) hstep⟩

/-! ### Repetitions -/

theorem withRepeatCount_one {node : Node} (h : node.repeatCount = 1) :
    node.withRepeatCount 1 (Nat.le_refl 1) = node := by
  cases node with
  | leaf tag atom =>
    obtain ⟨count, position, hpos⟩ := tag
    obtain rfl : count = 1 := h
    rfl
  | group tag kind children =>
    obtain ⟨count, position, hpos⟩ := tag
    obtain rfl : count = 1 := h
    rfl

theorem repetitionOf_run {run : Text} {count : Nat} (hrun : ∀ c ∈ run, c.isDigit = true)
    (hne : run ≠ []) (hread : Numeral.read run = .ok count) (index : Nat) :
    Token.repetitionOf index run =
      if h : count < 1 then .error (.fault ⟨.repeatZero, index⟩)
      else .ok (.repetition count (Nat.not_lt.mp h)) := by
  simp only [Token.repetitionOf, Numeral.isDecimal_run hrun hne, hread, if_true]
  rfl

theorem LeadsTo.counted {run : Text} {count : Nat} (hrun : ∀ c ∈ run, c.isDigit = true)
    (hne : run ≠ []) (hread : Numeral.read run = .ok count) (hpos : 1 ≤ count)
    (hstep : ∀ stop, p.step settings input ⟨index, .repetition count hpos, stop⟩ = .ok q) :
    LeadsTo settings input p index ("<" ++ run ++ ">") q := by
  have hmake : Token.repetitionOf index run = .ok (.repetition count hpos) := by
    rw [repetitionOf_run hrun hne hread, dif_neg (Nat.not_lt.mpr hpos)]
  rw [← guarded_run hrun]
  exact .enclosed (fun _ => rfl) (by decide) hmake hstep

theorem leadsTo_repetition (settings : Settings) (input : Text) (h : p.top.RepeatedWithin)
    {node : Node} (honce : node.repeatCount = 1) {count : Nat} (hpos : 1 ≤ count)
    (hcount : count < 10 ^ Numeral.maxDigits) (index : Nat) :
    ∃ q, p.Extends [node.withRepeatCount count hpos] q ∧
      LeadsTo settings input (p.push node) index (Node.repetition count) q := by
  unfold Node.repetition
  by_cases hone : count = 1
  · subst hone
    rw [if_pos rfl, withRepeatCount_one honce]
    exact ⟨p.push node, .push h node, .nil⟩
  · rw [if_neg hone]
    let top : Frame := { p.top with
      latest := node.withRepeatCount count hpos :: p.top.latest
      lastRepeated := some p.top.latest.length }
    have hfresh : p.top.lastRepeated ≠ some p.top.latest.length :=
      fun heq => Nat.lt_irrefl _ (h _ heq)
    have hwithin : top.RepeatedWithin := by
      intro k hk
      obtain rfl := Option.some.inj hk
      exact Nat.lt_succ_self _
    have hstep : ∀ stop, (p.push node).step settings input ⟨index, .repetition count hpos, stop⟩ =
        .ok { p with top := top } := fun _ => if_neg hfresh
    refine ⟨{ p with top := top }, ⟨rfl, rfl, rfl, rfl, hwithin⟩, ?_⟩
    exact .counted (fun _ => Numeral.isDigit_of_mem_digits) (Numeral.digits_ne_nil count)
      (Numeral.read_digits hcount) hpos hstep

/-! ### Groups -/

theorem atoms_of_segments {children : List Node}
    (h : ∀ child ∈ children, child.segment?.isSome = true) (hnested : Node.NestedAll children) :
    (children.filterMap Node.segment?).length = children.length ∧
      ∀ a ∈ children.filterMap Node.segment?, a.isRange = true ∧ a.Spellable := by
  induction children with
  | nil => exact ⟨rfl, nofun⟩
  | cons child rest ih =>
    obtain ⟨hchild, hrest⟩ := List.forall_mem_cons.mp h
    obtain ⟨hnode, hnodes⟩ := hnested
    obtain ⟨hlength, hatoms⟩ := ih hrest hnodes
    obtain ⟨tag, atom, rfl, -, hrange, hsegment⟩ := Node.segment?_eq_some hchild
    rw [List.filterMap_cons_some hsegment, List.length_cons, List.length_cons, hlength]
    exact ⟨rfl, List.forall_mem_cons.mpr ⟨⟨hrange, hnode.2⟩, hatoms⟩⟩

theorem sameAll_segmentNodes (settings : Settings) (input : Text) {children : List Node}
    (h : ∀ child ∈ children, child.segment?.isSome = true) {leaves : List (Nat × Atom)}
    (hleaves : leaves.map Prod.snd = children.filterMap Node.segment?) :
    Node.sameAll (Progress.segmentNodes settings input leaves) children = true := by
  induction children generalizing leaves with
  | nil =>
    rw [List.map_eq_nil_iff.mp hleaves]
    rfl
  | cons child rest ih =>
    obtain ⟨hchild, hrest⟩ := List.forall_mem_cons.mp h
    obtain ⟨tag, atom, rfl, hcount, -, hsegment⟩ := Node.segment?_eq_some hchild
    rw [List.filterMap_cons_some hsegment] at hleaves
    match leaves, hleaves with
    | leaf :: leaves, hleaves =>
      obtain ⟨hleaf, hleaves⟩ := List.cons.inj hleaves
      have hsame : Node.same (.leaf (.once (settings.at input leaf.1)) leaf.2) (.leaf tag atom) =
          true := by
        rw [Node.same, hleaf, hcount]
        simp [Tag.once]
      show (Node.same _ _ && Node.sameAll (Progress.segmentNodes settings input leaves) rest) = true
      rw [hsame, ih hrest hleaves]
      rfl

theorem leadsTo_rangeBlock (settings : Settings) (input : Text) (p : Progress) (index : Nat)
    {kind : GroupKind} {children : List Node} (hblock : Node.isRangeBlock kind children = true)
    (hnested : Node.NestedAll children) :
    ∃ nodes, Node.sameAll nodes children = true ∧
      LeadsTo settings input p index (Atom.rangeSpelling (children.filterMap Node.segment?))
        (p.push (.group (.once (settings.at input index)) kind nodes)) := by
  obtain ⟨rfl, htwo, hsegments⟩ := Node.segments_of_isRangeBlock hblock
  obtain ⟨hlength, hatoms⟩ := atoms_of_segments hsegments hnested
  cases hsplit : children.filterMap Node.segment? with
  | nil =>
    rw [hsplit, List.length_nil] at hlength
    omega
  | cons atom others =>
    rw [hsplit] at hatoms
    obtain ⟨leaves, hleaves, hread⟩ :=
      leadsTo_rangeSpelling settings input p index atom others hatoms
    rw [← hsplit] at hleaves
    refine ⟨_, sameAll_segmentNodes settings input hsegments hleaves, ?_⟩
    match leaves, hleaves with
    | [leaf], hleaves =>
      rw [← hleaves] at hlength
      simp only [List.map_cons, List.map_nil, List.length_cons, List.length_nil] at hlength
      omega
    | first :: second :: rest, _ => exact hread
    | [], hleaves =>
      rw [← hleaves] at hlength
      simp only [List.map_nil, List.length_nil] at hlength
      omega

/-- The code point that opens a bracket. -/
def Bracket.opener : Bracket → CodePoint
  | sequence => '('
  | choice => '\x7b'

theorem LeadsTo.closing {b : Bracket} {top parent : Frame} {below : List Frame} {noted : List Event}
    (hkind : top.kind = .bracket b) (hchoice : b = .choice → top.latest ≠ []) :
    LeadsTo settings input ⟨top, parent :: below, noted⟩ index [b.closer]
      (Progress.push (.group (.once (settings.at input top.start)) b.groupKind top.children)
        ⟨parent, below, noted⟩) := by
  have hnonempty : ¬(b = .choice ∧ top.latest = []) := fun h => hchoice h.1 h.2
  have hstep : ∀ stop, Progress.step settings input ⟨index, .closing b, stop⟩
      ⟨top, parent :: below, noted⟩ =
        .ok (((⟨parent, below, noted⟩ : Progress).note (.closed top.kind top.start)).push
          (top.kind.close (settings.at input top.start) top.children)) :=
    fun _ => (if_pos hkind).trans (if_neg hnonempty)
  refine LeadsTo.congr (.token (fun rest => ?_) hstep) ⟨?_, rfl⟩
  · cases b <;> rfl
  · rw [hkind, close_bracket]
    rfl

theorem leadsTo_bracketed (b : Bracket) {inner : Text} {nodes : List Node}
    (hdepth : p.depth < settings.maxDepth) (hchoice : b = .choice → nodes ≠ [])
    (hq : (p.enter (.bracket b) index).Extends nodes q)
    (hread : LeadsTo settings input (p.enter (.bracket b) index) (index + 1) inner q) :
    LeadsTo settings input p index (Node.bracketed b.groupKind inner)
      (p.push (.group (.once (settings.at input index)) b.groupKind nodes)) := by
  have htext : Node.bracketed b.groupKind inner = [b.opener] ++ (inner ++ [b.closer]) := by
    cases b <;> rfl
  have hopen : LeadsTo settings input p index [b.opener] (p.enter (.bracket b) index) := by
    have hstep : ∀ stop, p.step settings input ⟨index, .opening b, stop⟩ =
        .ok ((p.enter (.bracket b) index).note (.opened (.bracket b) index)) :=
      fun _ => if_neg (Int.not_le.mpr hdepth)
    refine LeadsTo.congr (.token (fun rest => ?_) hstep) ⟨rfl, rfl⟩
    cases b <;> rfl
  have hclose : LeadsTo settings input q (index + 1 + inner.length) [b.closer]
      (p.push (.group (.once (settings.at input index)) b.groupKind nodes)) := by
    obtain ⟨⟨kind, start, latest, lastRepeated⟩, below, noted⟩ := q
    obtain ⟨hkind, hstart, hlatest, hbelow, -⟩ := hq
    obtain rfl : start = index := hstart
    obtain rfl : latest = nodes.reverse := hlatest.trans (List.append_nil _)
    obtain rfl : below = p.top :: p.below := hbelow
    have hchildren : b = .choice → nodes.reverse ≠ [] := by
      intro hb hnil
      exact hchoice hb (List.reverse_eq_nil_iff.mp hnil)
    refine LeadsTo.congr (.closing hkind hchildren) ⟨?_, rfl⟩
    show Frame.push _ p.top = Frame.push _ p.top
    rw [Frame.children, List.reverse_reverse]
  rw [htext]
  exact hopen.trans (hread.trans hclose)

theorem same_withRepeatCount {tag tag' : Tag} {kind : GroupKind} {children nodes : List Node}
    (h : Node.sameAll nodes children = true) :
    ((Node.group tag' kind nodes).withRepeatCount tag.repeatCount tag.one_le).same
      (.group tag kind children) = true := by
  simp [Node.same, h]

mutual

/-- The spelling of a node that may stand below the root is read as that node. -/
theorem leadsTo_spelling (settings : Settings) (input : Text) (node : Node)
    (hnested : node.Nested) (p : Progress) (index : Nat) (h : p.top.RepeatedWithin)
    (hdepth : p.depth + node.groupDepth ≤ settings.maxDepth.toNat) :
    ∃ node' q, node'.same node = true ∧ p.Extends [node'] q ∧
      LeadsTo settings input p index node.spelling q := by
  match node, hnested with
  | .leaf tag atom, hnested =>
    obtain ⟨position, hatom⟩ := leadsTo_atom settings input p index hnested.2
    have honce : (Node.leaf (.once position) atom).repeatCount = 1 := rfl
    obtain ⟨q, hq, hrepetition⟩ := leadsTo_repetition settings input h honce tag.one_le hnested.1
      (index + atom.spelling.length)
    refine ⟨_, q, ?_, hq, hatom.trans hrepetition⟩
    simp [Node.same]
  | .group tag kind children, hnested =>
    obtain ⟨hcount, hroot, hchoice, hchildren⟩ := hnested
    obtain ⟨text, nodes, position, htext, hsame, hread⟩ : ∃ text nodes position,
        Node.spelling (.group tag kind children) = text ++ Node.repetition tag.repeatCount ∧
        Node.sameAll nodes children = true ∧
        LeadsTo settings input p index text (p.push (.group (.once position) kind nodes)) := by
      by_cases hblock : Node.isRangeBlock kind children = true
      · obtain ⟨nodes, hsame, hread⟩ := leadsTo_rangeBlock settings input p index hblock hchildren
        exact ⟨_, nodes, _, by rw [Node.spelling, if_pos hblock], hsame, hread⟩
      · rw [Node.groupDepth, if_neg hblock] at hdepth
        obtain ⟨b, rfl⟩ : ∃ b : Bracket, kind = b.groupKind := by
          cases kind with
          | root => exact absurd rfl hroot
          | sequence => exact ⟨.sequence, rfl⟩
          | choice => exact ⟨.choice, rfl⟩
        have hentered := depth_enter p b index
        obtain ⟨nodes, q, hsame, hq, hread⟩ := leadsTo_spellingAll settings input children hchildren
          (p.enter (.bracket b) index) (index + 1) nofun (by rw [hentered]; omega)
        have hne : b = .choice → nodes ≠ [] := by
          rintro rfl rfl
          cases children with
          | nil => exact hchoice rfl rfl
          | cons child rest => cases hsame
        exact ⟨_, nodes, _, by rw [Node.spelling, if_neg hblock], hsame,
          leadsTo_bracketed b (by omega) hne hq hread⟩
    have honce : (Node.group (.once position) kind nodes).repeatCount = 1 := rfl
    obtain ⟨q, hq, hrepetition⟩ := leadsTo_repetition settings input h honce tag.one_le hcount
      (index + text.length)
    rw [htext]
    exact ⟨_, q, same_withRepeatCount hsame, hq, hread.trans hrepetition⟩

theorem leadsTo_spellingAll (settings : Settings) (input : Text) (nodes : List Node)
    (hnested : Node.NestedAll nodes) (p : Progress) (index : Nat) (h : p.top.RepeatedWithin)
    (hdepth : p.depth + Node.groupDepthAll nodes ≤ settings.maxDepth.toNat) :
    ∃ nodes' q, Node.sameAll nodes' nodes = true ∧ p.Extends nodes' q ∧
      LeadsTo settings input p index (Node.spellingAll nodes) q := by
  match nodes, hnested with
  | [], _ => exact ⟨[], p, rfl, .refl h, .nil⟩
  | node :: rest, ⟨hnode, hrest⟩ =>
    rw [Node.groupDepthAll] at hdepth
    obtain ⟨node', q, hsame, hq, hread⟩ := leadsTo_spelling settings input node hnode p index h
      (by omega)
    obtain ⟨rest', r, hsames, hr, hreads⟩ := leadsTo_spellingAll settings input rest hrest q
      (index + node.spelling.length) hq.repeatedWithin (by rw [hq.depth_eq]; omega)
    exact ⟨node' :: rest', r, by rw [Node.sameAll, hsame, hsames]; rfl, hq.trans hr,
      hread.trans hreads⟩

end

end reading

/-! ### The trees of pattern text -/

theorem read_spelling (settings : Settings) {root : Node}
    (h : root.WellFormed settings.maxDepth.toNat) :
    ∃ root', read settings root.spelling = .ok root' ∧ root'.same root = true := by
  match root, h with
  | .group tag .root children, ⟨honce, hnested, hdepth⟩ =>
    have hspelling : Node.spelling (.group tag .root children) = Node.spellingAll children ++ [] := by
      have hblock : ¬Node.isRangeBlock .root children = true := by
        intro h
        cases (Node.segments_of_isRangeBlock h).1
      rw [Node.spelling, if_neg hblock, Node.repetition, if_pos honce]
      rfl
    have hstart : Progress.depth .start = 0 := rfl
    rw [hspelling]
    obtain ⟨nodes, q, hsame, hq, hread⟩ := leadsTo_spellingAll settings
      (Node.spellingAll children ++ []) children hnested .start 0 nofun (by rw [hstart]; omega)
    let root' : Node := .group (.once (settings.at (Node.spellingAll children ++ []) 0)) .root nodes
    have hroot : q.finish settings (Node.spellingAll children ++ []) = .ok root' := by
      obtain ⟨⟨kind, start, latest, lastRepeated⟩, below, noted⟩ := q
      obtain rfl : kind = .root := hq.kind
      obtain rfl : latest = nodes.reverse := hq.latest.trans (List.append_nil _)
      show Except.ok (Node.group _ _ nodes.reverse.reverse) = _
      rw [List.reverse_reverse]
    refine ⟨root', ?_, ?_⟩
    · rw [read_eq_resume, hread, resume_nil, hroot]
      rfl
    · rw [Node.same, hsame, honce]
      rfl

/-- Reading returns the well-formed trees and no others, up to positions: what it returns is
well-formed, and each well-formed tree is what its spelling is read as. -/
theorem read_wellFormed_trees (settings : Settings) :
    (∀ text root, read settings text = .ok root → root.WellFormed settings.maxDepth.toNat) ∧
    ∀ root : Node, root.WellFormed settings.maxDepth.toNat →
      ∃ root', read settings root.spelling = .ok root' ∧ root'.same root = true := by
  constructor
  · intro text root h
    exact wellFormed_of_read h
  · intro root h
    exact read_spelling settings h

/-- A choice between ranges and a repeated literal, with the limit that is the default. -/
theorem read_wellFormed_choice :
    ∃ root, read {} "\x7b:0-9:a-f;\"x\"<2>\x7d" = .ok root ∧ root.WellFormed 32 ∧
      ∃ root', read { strict := true } root.spelling = .ok root' ∧ root'.same root = true := by
  have hok : (read {} "\x7b:0-9:a-f;\"x\"<2>\x7d").isOk = true := by decide +kernel
  cases hread : read {} "\x7b:0-9:a-f;\"x\"<2>\x7d" with
  | error error =>
    rw [hread] at hok
    cases hok
  | ok root =>
    have hroot : root.WellFormed 32 := (read_wellFormed_trees {}).1 _ root hread
    exact ⟨root, rfl, hroot, (read_wellFormed_trees { strict := true }).2 root hroot⟩

end Pattern

end RandomText
