import Mathlib.Data.List.Nodup

namespace LinkPath
open List
variable {Node : Type} {next after : Node → Option Node} {pointer : Option Node}
  {nodes front rest : List Node} {node : Node}

/-- The nodes from a pointer on, up to a null pointer. -/
def Path (next : Node → Option Node) : Option Node → List Node → Prop
  | pointer, [] => pointer = none
  | pointer, node :: rest => pointer = some node ∧ Path next (next node) rest

lemma Path.head (path : Path next pointer nodes) : pointer = nodes.head? := by
  cases nodes with
  | nil => exact path
  | cons node rest => exact path.1

/-- A path depends only on the links of its nodes. -/
lemma Path.congr (path : Path next pointer nodes) (agree : ∀ node ∈ nodes, after node = next node) :
    Path after pointer nodes := by
  induction nodes generalizing pointer with
  | nil => exact path
  | cons node rest ih =>
    refine ⟨path.1, ?_⟩
    rw [agree node mem_cons_self]
    exact ih path.2 fun other mem => agree other (mem_cons_of_mem node mem)

/-- A pointer has one path. -/
lemma Path.unique {other : List Node} (path : Path next pointer nodes)
    (second : Path next pointer other) : nodes = other := by
  induction nodes generalizing pointer other with
  | nil =>
    cases other with
    | nil => rfl
    | cons node rest => exact absurd (second.1.symm.trans path) (Option.some_ne_none node)
  | cons node rest ih =>
    cases other with
    | nil => exact absurd (path.1.symm.trans second) (Option.some_ne_none node)
    | cons first others =>
      obtain rfl : node = first := Option.some.inj (path.1.symm.trans second.1)
      rw [ih path.2 second.2]

/-- The nodes behind some others are a path. -/
lemma Path.drop (path : Path next pointer (front ++ rest)) : Path next rest.head? rest := by
  induction front generalizing pointer with
  | nil => exact path.head ▸ path
  | cons node front ih => exact ih path.2

/-- No node is met twice. -/
lemma Path.nodup (path : Path next pointer nodes) : nodes.Nodup := by
  induction nodes generalizing pointer with
  | nil => exact nodup_nil
  | cons node rest ih =>
    refine nodup_cons.mpr ⟨fun mem => ?_, ih path.2⟩
    obtain ⟨front, back, rfl⟩ := append_of_mem mem
    -- The second visit would go on as the first one did, which is longer.
    have again : Path next (some node) (node :: back) := path.2.drop
    have whole : Path next (some node) (node :: (front ++ node :: back)) := ⟨rfl, path.2⟩
    have same := again.unique whole
    have length := congrArg List.length same
    simp only [length_cons, length_append] at length
    omega

/-- The links up to a node stay, and it gets other nodes behind it. -/
lemma Path.splice {others : List Node} (path : Path next pointer (front ++ node :: rest))
    (kept : ∀ other ∈ front, after other = next other) (tail : Path after (after node) others) :
    Path after pointer (front ++ node :: others) := by
  induction front generalizing pointer with
  | nil => exact ⟨path.1, tail⟩
  | cons first front ih =>
    refine ⟨path.1, ?_⟩
    rw [kept first mem_cons_self]
    exact ih path.2 fun other mem => kept other (mem_cons_of_mem first mem)

lemma Path.link (path : Path next pointer (front ++ node :: rest)) : Path next (next node) rest :=
  (Path.drop path).2

end LinkPath
