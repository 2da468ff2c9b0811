import RandomText.Proofs.Generation
import RandomText.Proofs.Pattern.Carrying

/-!
# Patterns one after the other

Two texts that are patterns are a pattern when one is written behind the other: no bracket is left
open between them, and a repetition at the beginning of the second, which would reach into the first,
is refused in the second alone. Reading the second behind the first does the same steps as reading it
alone, on top of the nodes of the first and with every index moved (`Carry.moved`). The tree has the
nodes of both, and what it generates and asks for is what the two generate and ask for one after the
other (`read_append`).
-/

namespace RandomText

/-- The position, `offset` further on in the text `input`. -/
def Position.moved (offset : Nat) (input : Text) (position : Position) : Position :=
  ⟨position.origin, position.index + offset, input⟩

namespace Node

/-- The nodes with every position moved by `offset` in the text `input`. -/
def movedAll (offset : Nat) (input : Text) : List Node → List Node :=
  mapPositionAll (Position.moved offset input)

variable (g : Position → Position) {σ : Type} (source : Source σ)

mutual

theorem generate_mapPosition (node : Node) :
    (node.mapPosition g).generate source = node.generate source := by
  match node with
  | .leaf tag atom => rfl
  | .group tag .choice children =>
    simp only [mapPosition, generate, length_mapPositionAll, generateAt_mapPositionAll children]
    rfl
  | .group tag .root children =>
    simp only [mapPosition, generate, generateAll_mapPositionAll children]
    rfl
  | .group tag .sequence children =>
    simp only [mapPosition, generate, generateAll_mapPositionAll children]
    rfl

theorem generateAll_mapPositionAll (nodes : List Node) :
    generateAll source (mapPositionAll g nodes) = generateAll source nodes := by
  match nodes with
  | [] => rfl
  | node :: rest =>
    simp only [mapPositionAll, generateAll, generate_mapPosition node, generateAll_mapPositionAll rest]

theorem generateAt_mapPositionAll (nodes : List Node) (i : Nat) :
    generateAt source i (mapPositionAll g nodes) = generateAt source i nodes := by
  match nodes, i with
  | [], _ => rfl
  | node :: rest, 0 => exact generate_mapPosition node
  | node :: rest, i + 1 => exact generateAt_mapPositionAll rest i

end

theorem generateAll_movedAll (offset : Nat) (input : Text) (nodes : List Node) :
    generateAll source (movedAll offset input nodes) = generateAll source nodes :=
  generateAll_mapPositionAll _ source nodes

end Node

namespace Pattern

/-! ### A reading on top of another -/

/-- The text stands `offset` further on in the text `whole`. -/
def Carry.moved (settings : Settings) (input whole : Text) (offset : Nat) :
    Carry settings input whole where
  index := (· + offset)
  position := Position.moved offset whole
  at_index := fun _ => rfl

section runs

variable {settings : Settings} {input : Text}

theorem Frame.RepeatedWithin.carriedOnto {whole : Text} (carry : Carry settings input whole)
    {root base : Frame} (h : root.RepeatedWithin) (hbase : base.RepeatedWithin)
    (hkind : root.kind = .root) : (root.carriedOnto carry base).RepeatedWithin := by
  intro k hk
  rw [Frame.carriedOnto_root carry base hkind] at hk ⊢
  show k < (_ ++ base.latest).length
  rw [List.length_append, Node.length_mapPositionAll]
  change (root.lastRepeated.map _).or base.lastRepeated = some k at hk
  cases hroot : root.lastRepeated with
  | none =>
    rw [hroot] at hk
    have hlt := hbase k hk
    omega
  | some j =>
    rw [hroot] at hk
    have hlt := h j hroot
    have hjk : j + base.latest.length = k := Option.some.inj hk
    omega

theorem read_append_eq {front back : Text} {rootFront rootBack : Node}
    (hfront : read settings front = .ok rootFront) (hback : read settings back = .ok rootBack) :
    read settings (front ++ back) =
      .ok (.group (.once (settings.at (front ++ back) 0)) .root
        (Node.movedAll 0 (front ++ back) rootFront.children ++
          Node.movedAll front.length (front ++ back) rootBack.children)) := by
  obtain ⟨p, -, hp, hpbelow, hpkind, hpstart, hpwithin, rfl⟩ := reached_of_read hfront
  obtain ⟨q, -, hq, hqbelow, hqkind, -, -, rfl⟩ := reached_of_read hback
  let whole := front ++ back
  let first : Carry settings front whole := .moved settings front whole 0
  let second : Carry settings back whole := .moved settings back whole front.length
  let reached := p.carriedOnto first .start
  have hbelow : reached.below = [] := by
    show p.below.map _ = []
    rw [hpbelow]
    rfl
  have htop : reached.top = p.top.carriedOnto first (.opened .root 0) := rfl
  have hstart : Progress.start.carriedOnto second reached = reached := by
    refine Progress.start_carriedOnto second hbelow ?_ ?_
    · rw [htop, Frame.kind_carriedOnto]
      exact hpkind
    · rw [htop, Frame.carriedOnto_root first _ hpkind]
      exact hpstart
  have hwithin : reached.top.RepeatedWithin := hpwithin.carriedOnto first nofun hpkind
  have hstartWithin : Progress.start.top.RepeatedWithin := nofun
  have hrigid : ∀ offset i k : Nat, i + k + offset = i + offset + k := by omega
  have hmeet : second.index 0 = front.length := Nat.zero_add _
  have hfirst : Reached settings whole front.length reached (Token.scan front.length back).1 := by
    apply hp.carried first hstartWithin (hrigid 0)
    rw [List.take_length, Progress.start_carriedOnto first rfl rfl rfl]
    exact .start
  have hsecond : Reached settings whole (back.length + front.length) (q.carriedOnto second reached)
      (Token.scan (back.length + front.length) []).1 := by
    apply hq.carried second hwithin (hrigid front.length)
    rw [hmeet, hstart, List.take_length, List.append_nil]
    exact hfirst
  have hend : whole.drop (back.length + front.length) = [] := by
    apply List.drop_eq_nil_of_le
    rw [List.length_append]
    omega
  have hkind : (q.carriedOnto second reached).top.kind = .root :=
    (Frame.kind_carriedOnto second reached.top q.top).trans hqkind
  have hchildren : (q.carriedOnto second reached).top.children =
      Node.movedAll 0 whole p.top.children ++ Node.movedAll front.length whole q.top.children := by
    rw [Node.movedAll, Node.movedAll]
    show (q.top.carriedOnto second reached.top).children = _
    rw [Frame.children_carriedOnto second _ hqkind, htop, Frame.children_carriedOnto first _ hpkind]
    rfl
  rw [hsecond.read_of_root hend hkind, hchildren]
  rfl

end runs

/-- Two patterns are a pattern when one is written behind the other. Its nodes are those of the first
and those of the second, moved by the length of the first; from every source it generates what the
first generates and then what the second generates, and asks for the same bounds as these two. -/
theorem read_append (settings : Settings) {front back : Text} {rootFront rootBack : Node}
    (hfront : read settings front = .ok rootFront) (hback : read settings back = .ok rootBack) :
    ∃ root, read settings (front ++ back) = .ok root ∧
      root = .group (.once (settings.at (front ++ back) 0)) .root
        (Node.movedAll 0 (front ++ back) rootFront.children ++
          Node.movedAll front.length (front ++ back) rootBack.children) ∧
      ∀ (σ : Type) (source : Source σ) (state : σ), ∃ s t d d' d'',
        (rootFront.generate source).outcome (.start state) = (.ok s, d) ∧
        (rootBack.generate source).outcome (.start d.state) = (.ok t, d') ∧
        (root.generate source).outcome (.start state) = (.ok (s ++ t), d'') ∧
        d''.state = d'.state ∧ d''.bounds = d.bounds ++ d'.bounds := by
  refine ⟨_, read_append_eq hfront hback, rfl, ?_⟩
  intro σ source state
  match rootFront, wellFormed_of_read hfront, rootBack, wellFormed_of_read hback with
  | .group tagFront .root nodesFront, ⟨honceFront, hnestedFront, _⟩,
      .group tagBack .root nodesBack, ⟨honceBack, hnestedBack, _⟩ =>
    obtain ⟨s, state', asked, -, hs⟩ := Node.completes_generateAll source nodesFront hnestedFront state
    obtain ⟨t, state'', asked', -, ht⟩ := Node.completes_generateAll source nodesBack hnestedBack state'
    have hmovedFront := hs []
    have hmovedBack := ht (asked ++ [])
    rw [← Node.generateAll_movedAll source 0 (front ++ back)] at hmovedFront
    rw [← Node.generateAll_movedAll source front.length (front ++ back)] at hmovedBack
    have hboth := Node.outcome_generateAll_append source hmovedFront hmovedBack
    refine ⟨s, t, ⟨state', asked ++ []⟩, ⟨state'', asked' ++ []⟩, _,
      Node.outcome_generate_root source honceFront (hs []),
      Node.outcome_generate_root source honceBack (ht []),
      Node.outcome_generate_root source rfl hboth, rfl, ?_⟩
    simp [Draws.bounds]

/-- A closing bracket and a backslash without meaning at the end of the first pattern, and a repeated
choice in the second. -/
theorem read_append_stray :
    ∃ rootFront rootBack root, read {} "a<2>)\\" = .ok rootFront ∧
      read {} "\x7b\"x\".\x7d<3>" = .ok rootBack ∧
      read {} "a<2>)\\\x7b\"x\".\x7d<3>" = .ok root ∧
      root = .group (.once (Settings.at {} "a<2>)\\\x7b\"x\".\x7d<3>" 0)) .root
        (Node.movedAll 0 "a<2>)\\\x7b\"x\".\x7d<3>" rootFront.children ++
          Node.movedAll 6 "a<2>)\\\x7b\"x\".\x7d<3>" rootBack.children) := by
  have hfrontOk : (read {} "a<2>)\\").isOk = true := by decide +kernel
  have hbackOk : (read {} "\x7b\"x\".\x7d<3>").isOk = true := by decide +kernel
  cases hfront : read {} "a<2>)\\" with
  | error error =>
    rw [hfront] at hfrontOk
    cases hfrontOk
  | ok rootFront =>
    cases hback : read {} "\x7b\"x\".\x7d<3>" with
    | error error =>
      rw [hback] at hbackOk
      cases hbackOk
    | ok rootBack =>
      obtain ⟨root, hread, hroot, -⟩ := read_append {} hfront hback
      exact ⟨rootFront, rootBack, root, rfl, rfl, hread, hroot⟩

end Pattern

end RandomText
