import RandomText.Stored.Value

/-!
# Pattern trees as stored trees

A pattern tree is stored with the fields that its kind has, the derived ones included.
-/

namespace RandomText.Stored

namespace Value

/-- The place of a position. -/
def placeOf (position : Position) : Place := ⟨.text position.origin, .integer position.index⟩

/-- The kind and the fields of a leaf. -/
def ofAtom : Atom → NodeKind × List Value
  | .literal t => (.literal, [.text t])
  | .any => (.any, [])
  | .alpha uppercase => (.alpha, [.bool uppercase])
  | .numeric => (.numeric, [])
  | .symbol => (.symbol, [])
  | .basicSymbol => (.basicSymbol, [])
  | .sampleSet chars _ => (.sampleSet, [.text chars])
  | .range first last _ => (.range, [.integer first, .integer last, .integer (last + 1)])
  | .charRange first last _ =>
    (.charRange, [.text [first], .text [last], .integer first.val, .integer (last.val + 1)])

/-- The kind of a group. -/
def groupKind : GroupKind → NodeKind
  | .root => .root
  | _ => .group

mutual

/-- The stored form of a pattern tree. -/
def ofNode : Node → Value
  | .leaf tag atom =>
    node (ofAtom atom).1 (tag.position.map placeOf) (.integer tag.repeatCount) (ofAtom atom).2
  | .group tag kind children =>
    node (groupKind kind) (tag.position.map placeOf) (.integer tag.repeatCount)
      [.list (ofNodes children), .bool (kind ≠ .choice)]

def ofNodes : List Node → List Value
  | [] => []
  | child :: rest => ofNode child :: ofNodes rest

end

end Value

end RandomText.Stored
