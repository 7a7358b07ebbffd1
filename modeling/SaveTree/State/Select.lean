/-
  Children of one type that pass a test.

  The test may keep a state of its own, so it runs in a monad: it is asked once for each child
  that has the type, in order, and for no other.
-/
import SaveTree.State.View

namespace SaveTree

namespace Items

/-- The items of a type, in order. -/
def ofType (t : TypeName) (xs : List State) : List State := xs.filterMap (State.cast t)

/-- The items of a type that pass a test, in order. -/
def select {m : Type → Type} [Monad m] (t : TypeName) (test : State → m Bool)
    (xs : List State) : m (List State) :=
  (ofType t xs).filterM test

end Items

namespace Members

/-- The fields whose values have a type, in order. -/
def ofType (t : TypeName) (fs : Fields State) : Fields State :=
  fs.filter fun (_, value) => t.accepts value.kind

/-- The fields whose values have a type and pass a test, in order. -/
def select {m : Type → Type} [Monad m] (t : TypeName) (test : State → m Bool)
    (fs : Fields State) : m (Fields State) :=
  (ofType t fs).filterM fun (_, value) => test value

end Members

end SaveTree
