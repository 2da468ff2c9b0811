import RandomText.Proofs.Except
import RandomText.Proofs.Lowering
import RandomText.Stored.Generate
import RandomText.Stored.Lower
import RandomText.Stored.OfNode

/-!
# Stored trees of pattern trees

A stored tree `Stores` a pattern tree if its nodes hold what those of the pattern tree hold, wherever
they stand. Then it is lowered to the same text (`Stores.lower_eq`) and generates alike
(`Stores.agree_generate`), although both work on values that are only known to be of the right types
while they run.
-/

namespace RandomText.Stored

open Drawing Value

mutual

/-- The value is a node that holds the same as the pattern tree; its place is not looked at. -/
inductive Stores : Value → Node → Prop where
  | leaf (place : Option Place) (tag : Tag) (atom : Atom) :
    Stores (.node (ofAtom atom).1 place (.integer tag.repeatCount) (ofAtom atom).2) (.leaf tag atom)
  | group (place : Option Place) (tag : Tag) (kind : GroupKind) (vs : List Value) {children : List Node}
    (hchildren : StoresAll vs children) :
    Stores (.node (groupKind kind) place (.integer tag.repeatCount)
      [.list vs, .bool (kind ≠ .choice)]) (.group tag kind children)

inductive StoresAll : List Value → List Node → Prop where
  | nil : StoresAll [] []
  | cons {v : Value} {vs : List Value} {node : Node} {nodes : List Node} (hfirst : Stores v node)
    (hrest : StoresAll vs nodes) : StoresAll (v :: vs) (node :: nodes)

end

mutual

theorem stores_ofNode (node : Node) : Stores (ofNode node) node := by
  match node with
  | .leaf tag atom =>
    rw [ofNode]
    exact .leaf _ tag atom
  | .group tag kind children =>
    rw [ofNode]
    exact .group _ tag kind _ (storesAll_ofNodes children)

theorem storesAll_ofNodes (nodes : List Node) : StoresAll (ofNodes nodes) nodes := by
  match nodes with
  | [] => exact .nil
  | first :: rest => exact .cons (stores_ofNode first) (storesAll_ofNodes rest)

end

/-! ### Lowering -/

theorem lowerRange_integers (f : Text) (low high : Int) :
    Value.lowerRange f (.integer low) (.integer high) =
      (Atom.lowerRange f low high).mapError Error.numeral := by
  rw [Atom.lowerRange, Except.mapError_bind]
  simp only [Except.mapError_bind]
  rfl

theorem lowerAtom_ofAtom (atom : Atom) :
    lowerAtom (ofAtom atom).1 (ofAtom atom).2 = atom.lower.mapError .numeral := by
  cases atom with
  | any => exact lowerRange_integers _ _ _
  | numeric => exact lowerRange_integers _ _ _
  | range first last hle => exact lowerRange_integers _ _ _
  | charRange first last hle => exact lowerRange_integers _ _ _
  | _ => rfl

theorem lowerRepeated_integer (n : Nat) (atom : Text) :
    Value.lowerRepeated (.integer n) atom = (Node.lowerRepeated n atom).mapError .numeral := by
  unfold Value.lowerRepeated Node.lowerRepeated
  by_cases hone : n = 1
  · subst hone
    rfl
  · have hequal : (Value.integer n).equal (.integer 1) = false := by
      rw [Value.equal]
      exact decide_eq_false (by omega)
    rw [hequal, if_neg hone, Except.mapError_bind]
    rfl

theorem lower_leaf (place : Option Place) (count : Value) (atom : Atom) :
    (Value.node (ofAtom atom).1 place count (ofAtom atom).2).lower =
      lowerAtom (ofAtom atom).1 (ofAtom atom).2 >>= Value.lowerRepeated count := by
  cases atom <;> rfl

theorem lower_group (place : Option Place) (count : Value) (kind : GroupKind) (vs : List Value) :
    (Value.node (groupKind kind) place count [.list vs, .bool (kind ≠ .choice)]).lower =
      Value.lowerAll vs >>= fun ts => Value.lowerRepeated count (Node.lowerGroup kind ts) := by
  cases kind <;> rfl

mutual

theorem Stores.lower_eq {v : Value} {node : Node} (h : Stores v node) :
    v.lower = node.lower.mapError .numeral := by
  match node, h with
  | .leaf tag atom, .leaf place _ _ =>
    rw [lower_leaf, Node.lower, Except.mapError_bind, lowerAtom_ofAtom]
    exact congrArg _ (funext fun one => lowerRepeated_integer tag.repeatCount one)
  | .group tag kind children, .group place _ _ vs hchildren =>
    rw [lower_group, Node.lower, Except.mapError_bind, hchildren.lowerAll_eq]
    simp only [lowerRepeated_integer]

theorem StoresAll.lowerAll_eq {vs : List Value} {nodes : List Node} (h : StoresAll vs nodes) :
    Value.lowerAll vs = (Node.lowerAll nodes).mapError .numeral := by
  match nodes, h with
  | [], .nil => rfl
  | first :: rest, .cons hfirst hrest =>
    rw [Value.lowerAll, Node.lowerAll, hfirst.lower_eq, hrest.lowerAll_eq, Except.mapError_bind]
    simp only [Except.mapError_bind]
    rfl

end

/-! ### Generating -/

section generate

variable {σ : Type} (source : Source σ)

theorem agree_inRange_integers {low high : Int} (h : low < high) :
    Agree (fun n => low ≤ n ∧ n < high) id (Drawing.inRange source low high)
      (Value.inRange source (.integer low) (.integer high)) := by
  intro d
  have hsize : rangeSize (.integer low) (.integer high) = .ok (low, (high - low).toNat) := by
    have hbefore : before .atMost (.integer high) (.integer low) = .ok false :=
      congrArg Except.ok (decide_eq_false (by omega))
    rw [rangeSize, hbefore]
    rfl
  have hlt := source.below_lt (high - low).toNat d.state (by omega)
  refine ⟨low + (source.below (high - low).toNat d.state).1,
    ⟨(source.below (high - low).toNat d.state).2, (high - low).toNat :: d.asked⟩,
    ⟨by omega, by omega⟩, ?_, ?_⟩
  · rw [Drawing.inRange, if_neg (by omega)]
    rfl
  · rw [Value.inRange, hsize]
    rfl

theorem agree_decimalInRange {low high : Int} (h : low < high) (hlow : low.natAbs < 10 ^ Numeral.maxDigits)
    (hhigh : high.natAbs < 10 ^ Numeral.maxDigits) :
    Agree (fun _ => True) Value.text (Drawing.decimalInRange source low high)
      (Value.decimalInRange source (.integer low) (.integer high)) := by
  refine ((agree_inRange_integers source h).mapError_left _).bind fun n hn => ?_
  have hwrite := Numeral.write_eq_ok_iff.mpr ⟨(by omega : n.natAbs < 10 ^ Numeral.maxDigits), rfl⟩
  rw [id, hwrite]
  exact Agree.pure trivial

theorem agree_codeInRange {low high : Int} (h : low < high) (hlow : 0 ≤ low) (hhigh : high ≤ 0x110000) :
    Agree (fun _ => True) Value.text (Drawing.codeInRange source low high)
      (Value.codeInRange source (.integer low) (.integer high)) := by
  refine ((agree_inRange_integers source h).mapError_left _).bind fun n hn => ?_
  obtain ⟨code, rfl⟩ := Int.eq_ofNat_of_zero_le (Int.le_trans hlow hn.1)
  have hcode : code < 0x110000 := by omega
  have hof : ofCode code = .ok [⟨code, hcode⟩] := by
    rw [ofCode, if_neg (by omega), if_neg (by omega)]
    simp [CodePoint.ofNat?, hcode]
  have htext : (CodePoint.ofNat? (code : Int).toNat).toList = [⟨code, hcode⟩] := by
    simp [CodePoint.ofNat?, hcode]
  rw [id, hof, htext]
  exact Agree.pure trivial

theorem sample_text (chars : Text) : Value.sample source (.text chars) =
    Value.inRange source (.integer 0) (.integer chars.length) >>=
      fun i => fixed ((Value.text chars).element i.toNat) := by
  simp only [Value.sample, indexInto, bind_assoc, pure_bind]
  rfl

theorem agree_sample {chars : Text} (h : chars ≠ []) :
    Agree (fun _ => True) Value.text (Drawing.character source chars)
      (Value.sample source (.text chars)) := by
  have hlength : 0 < chars.length := List.length_pos_iff.mpr h
  have helement : Agree (fun _ => True) (fun c => Value.text [c]) (Drawing.element source chars)
      (Value.sample source (.text chars)) := by
    rw [sample_text]
    refine (agree_inRange_integers source (by omega)).bind fun i hi => ?_
    have hlt : i.toNat < chars.length := by omega
    simp only [id, Value.element, List.getElem?_eq_getElem hlt]
    exact Agree.pure trivial
  exact (helement.mapError_left _).bind_left fun c _ => ⟨rfl, rfl, trivial⟩

theorem agree_generateAtom {atom : Atom} (h : atom.Writable) :
    Agree (fun _ => True) Value.text (atom.generate source)
      (generateAtom source (ofAtom atom).1 (ofAtom atom).2) := by
  cases atom with
  | literal text => exact Agree.pure trivial
  | any => exact agree_codeInRange source (by decide) (by decide) (by decide)
  | alpha uppercase =>
    have hne : Atom.letters uppercase ≠ [] := by cases uppercase <;> decide
    exact agree_sample source hne
  | numeric =>
    exact agree_decimalInRange source (by decide) (natAbs_lt_of_lt charBound_lt (by decide))
      (natAbs_lt_of_lt charBound_lt (by decide))
  | symbol => exact agree_sample source (by decide)
  | basicSymbol => exact agree_sample source (by decide)
  | sampleSet chars hne => exact agree_sample source hne
  | range first last hle => exact agree_decimalInRange source (by omega) h.1 h.2
  | charRange first last hle =>
    have hlast := last.isLt
    exact agree_codeInRange source (by omega) (by omega) (by omega)

theorem concatenated_texts (k : Nat) (ts : List Text) :
    concatenated k (ts.map .text) = .ok ts.flatten := by
  induction ts generalizing k with
  | nil => rfl
  | cons t rest ih =>
    rw [List.map_cons, concatenated, ih]
    rfl

theorem agree_collected {x : Drawing σ GenerateError Text} {y : Drawing σ Error Value}
    (h : Agree (fun _ => True) Value.text x y) (n : Nat) (parts : List Text) :
    Agree (fun _ => True) id (Drawing.repeatedOnto x n parts)
      (collected y n (parts.map .text) >>= fun vs => fixed (concatenated 0 vs)) := by
  -- Both keep the latest output in front; they differ only in when the parts are put together.
  induction n generalizing parts with
  | zero =>
    have hconcatenated := concatenated_texts 0 parts.reverse
    rw [List.map_reverse] at hconcatenated
    show Agree _ _ (pure parts.reverse.flatten) (fixed (concatenated 0 (parts.map Value.text).reverse))
    rw [hconcatenated]
    exact Agree.pure trivial
  | succ n ih =>
    rw [Drawing.repeatedOnto, collected, bind_assoc]
    exact h.bind fun part _ => ih (part :: parts)

theorem agree_generateRepeated {x : Drawing σ GenerateError Text} {y : Drawing σ Error Value}
    (h : Agree (fun _ => True) Value.text x y) (n : Nat) :
    Agree (fun _ => True) id (Drawing.repeated n x) (generateRepeated (.integer n) y) :=
  agree_collected h n []

theorem generate_leaf (place : Option Place) (count : Value) (atom : Atom) :
    (Value.node (ofAtom atom).1 place count (ofAtom atom).2).generate source =
      generateRepeated count (generateAtom source (ofAtom atom).1 (ofAtom atom).2) := by
  cases atom <;> rfl

/-- One instance of a group. -/
def generateGroup (kind : GroupKind) (vs : List Value) : Drawing σ Error Text :=
  match kind with
  | .choice => do
    let i ← Value.inRange source (.integer 0) (.integer vs.length)
    Value.generateAt source i.toNat vs
  | _ => Value.generateAll source vs

theorem generate_group (place : Option Place) (count : Value) (kind : GroupKind) (vs : List Value) :
    (Value.node (groupKind kind) place count [.list vs, .bool (kind ≠ .choice)]).generate source =
      generateRepeated count (generateGroup source kind vs >>= fun t => pure (.text t)) := by
  cases kind with
  | root => rfl
  | sequence => rfl
  | choice =>
    have hchoice : (Value.node (groupKind .choice) place count
        [.list vs, .bool (GroupKind.choice ≠ .choice)]).generate source = generateRepeated count (do
          let i ← indexInto source (.list vs)
          return .text (← Value.generateChild source i (.list vs))) := rfl
    rw [hchoice, generateGroup]
    simp only [indexInto, bind_assoc, pure_bind]
    rfl

theorem StoresAll.length_eq {vs : List Value} {nodes : List Node} (h : StoresAll vs nodes) :
    vs.length = nodes.length := by
  match nodes, h with
  | [], .nil => rfl
  | first :: rest, .cons _ hrest => rw [List.length_cons, List.length_cons, hrest.length_eq]

mutual

/-- What can be lowered and run generates alike from the stored tree. -/
theorem Stores.agree_generate {v : Value} {node : Node} (h : Stores v node) (hrunnable : node.Runnable)
    (hwritable : node.Writable) :
    Agree (fun _ => True) id (node.generate source) (v.generate source) := by
  match node, h with
  | .leaf tag atom, .leaf place _ _ =>
    obtain ⟨-, hatom⟩ := hwritable
    rw [generate_leaf]
    exact agree_generateRepeated (agree_generateAtom source hatom) tag.repeatCount
  | .group tag kind children, .group place _ _ vs hchildren =>
    obtain ⟨hchoice, hrunnable⟩ := hrunnable
    obtain ⟨-, hwritable⟩ := hwritable
    obtain ⟨hall, hat⟩ := hchildren.agree_generate hrunnable hwritable
    have hgroup : Agree (fun _ => True) id (Node.generateGroup source kind children)
        (generateGroup source kind vs) := by
      cases kind with
      | root => exact hall
      | sequence => exact hall
      | choice =>
        have hlength : 0 < children.length := List.length_pos_iff.mpr (hchoice rfl)
        rw [generateGroup, hchildren.length_eq]
        refine ((agree_inRange_integers source (by omega)).mapError_left _).bind fun i hi => ?_
        obtain ⟨hlow, hhigh⟩ := hi
        exact hat i.toNat (by omega)
    rw [generate_group, RandomText.generate_group]
    exact agree_generateRepeated (hgroup.bind_right fun t _ => rfl) tag.repeatCount

theorem StoresAll.agree_generate {vs : List Value} {nodes : List Node} (h : StoresAll vs nodes)
    (hrunnable : Node.RunnableAll nodes) (hwritable : Node.WritableAll nodes) :
    Agree (fun _ => True) id (Node.generateAll source nodes) (Value.generateAll source vs) ∧
      ∀ i < nodes.length, Agree (fun _ => True) id (Node.generateAt source i nodes)
        (Value.generateAt source i vs) := by
  match nodes, h with
  | [], .nil => exact ⟨Agree.pure trivial, nofun⟩
  | first :: rest, .cons hfirst hrest =>
    obtain ⟨hfirstRunnable, hrunnable⟩ := hrunnable
    obtain ⟨hfirstWritable, hwritable⟩ := hwritable
    have hhead := hfirst.agree_generate hfirstRunnable hfirstWritable
    obtain ⟨hall, hat⟩ := hrest.agree_generate hrunnable hwritable
    refine ⟨hhead.bind fun t _ => hall.bind fun others _ => Agree.pure trivial, fun i hi => ?_⟩
    cases i with
    | zero => exact hhead
    | succ i => exact hat i (Nat.lt_of_succ_lt_succ hi)

end

end generate

end RandomText.Stored
