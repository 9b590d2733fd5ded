import Lumen.Diagnostic

/-!
# Variable bindings

A flat map from names to values, kept in the order of the names.  Two maps that
bind the same names to the same values are therefore equal.
-/

namespace Lumen

namespace Bindings

/-- Binds a name in an ordered list, replacing a former value. -/
def insertEntry (name : String) (value : Value) :
    List (String × Value) → List (String × Value)
  | [] => [(name, value)]
  | (key, old) :: entries =>
      if name < key then (name, value) :: (key, old) :: entries
      else if name = key then (name, value) :: entries
      else (key, old) :: insertEntry name value entries

/-- Names in ascending order, each once. -/
def Ordered (entries : List (String × Value)) : Prop :=
  entries.Pairwise fun left right => left.1 < right.1

theorem mem_insertEntry {name : String} {value : Value} {entries : List (String × Value)}
    {entry : String × Value} (hentry : entry ∈ insertEntry name value entries) :
    entry.1 = name ∨ entry ∈ entries := by
  induction entries with
  | nil => simp_all [insertEntry]
  | cons head entries ih =>
      simp only [insertEntry] at hentry
      split at hentry
      · rcases List.mem_cons.mp hentry with rfl | hentry
        · exact .inl rfl
        · exact .inr hentry
      · split at hentry
        · rcases List.mem_cons.mp hentry with rfl | hentry
          · exact .inl rfl
          · exact .inr (List.mem_cons_of_mem _ hentry)
        · rcases List.mem_cons.mp hentry with rfl | hentry
          · exact .inr List.mem_cons_self
          · exact (ih hentry).imp id (List.mem_cons_of_mem _)

/-- Binding a name keeps the names in order. -/
theorem ordered_insertEntry (name : String) (value : Value)
    {entries : List (String × Value)} (hordered : Ordered entries) :
    Ordered (insertEntry name value entries) := by
  induction entries with
  | nil => simp [insertEntry, Ordered]
  | cons head entries ih =>
      obtain ⟨key, old⟩ := head
      have hhead := (List.pairwise_cons.mp hordered).1
      have htail := (List.pairwise_cons.mp hordered).2
      simp only [insertEntry]
      split
      next hless =>
        refine List.pairwise_cons.mpr ⟨fun entry hentry => ?_, hordered⟩
        rcases List.mem_cons.mp hentry with rfl | hentry
        · exact hless
        · exact String.lt_trans hless (hhead entry hentry)
      next hless =>
        split
        next hequal =>
          subst hequal
          exact List.pairwise_cons.mpr ⟨hhead, htail⟩
        next hdiffer =>
          refine List.pairwise_cons.mpr ⟨fun entry hentry => ?_, ih htail⟩
          rcases mem_insertEntry hentry with hname | hentry
          · rw [hname]
            exact Std.lt_of_le_of_ne (String.not_lt.mp hless) (Ne.symm hdiffer)
          · exact hhead entry hentry

end Bindings

structure Bindings where
  entries : List (String × Value)
  ordered : Bindings.Ordered entries
  deriving DecidableEq

namespace Bindings

def empty : Bindings where
  entries := []
  ordered := List.Pairwise.nil

instance : Inhabited Bindings := ⟨empty⟩

def define (bindings : Bindings) (name : String) (value : Value) : Bindings where
  entries := insertEntry name value bindings.entries
  ordered := ordered_insertEntry name value bindings.ordered

def get? (bindings : Bindings) (name : String) : Option Value :=
  bindings.entries.lookup name

def contains (bindings : Bindings) (name : String) : Bool :=
  (bindings.get? name).isSome

def names (bindings : Bindings) : List String :=
  bindings.entries.map Prod.fst

def size (bindings : Bindings) : Nat :=
  bindings.entries.length

def describe (bindings : Bindings) : String :=
  "Environment(" ++ toString bindings.size ++ " bindings)"

/-- Binds names in order. -/
def ofList (entries : List (String × Value)) : Bindings :=
  entries.foldl (fun bindings entry => bindings.define entry.1 entry.2) empty

end Bindings

end Lumen
