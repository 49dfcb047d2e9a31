import Covenant.Proofs.Run.Posts
import Mathlib.Logic.Relation

/-!
Where the first function of a run is. Steps take it from one of its places to the next, or to
another of its blocks, and leave it at a call that it makes for as long as the call runs.
-/

namespace Covenant

namespace Post

inductive Leads : Post → Post → Prop
  | next (post) : Leads post post.next
  | goto {post target block} : target ∈ post.block.terminator.node.successors →
      post.function.block? target = some block → Leads post (.start post.function block)

variable {contract : Contract} {declared : Declarations} {post following : Post}

theorem Stands.leads (stands : post.Stands contract declared) (leads : Leads post following) :
    following.Stands contract declared := by
  cases leads with
  | next => exact ⟨stands.member, stands.function, stands.block, stands.reached⟩
  | @goto target block edge found =>
    obtain ⟨types, typed⟩ := stands.function
    have numbered := typed.ids target block found
    refine ⟨stands.member, stands.function, ?_, ?_⟩
    · rw [start, numbered]
      exact found
    · rw [start, numbered]
      exact .next stands.reached stands.block edge

theorem Stands.along (stands : post.Stands contract declared)
    (path : Relation.ReflTransGen Leads post following) :
    following.Stands contract declared ∧ following.function = post.function := by
  induction path with
  | refl => exact ⟨stands, rfl⟩
  | tail _ leads ih => exact ⟨ih.1.leads leads, by cases leads <;> exact ih.2⟩

theorem Leads.getLast_cons (leads : Leads post following) (waiting : List Post) :
    (following :: waiting).getLast (List.cons_ne_nil _ _) = (post :: waiting).getLast
    (List.cons_ne_nil _ _) ∨
      Leads ((post :: waiting).getLast (List.cons_ne_nil _ _))
        ((following :: waiting).getLast (List.cons_ne_nil _ _)) := by
  by_cases alone : waiting = []
  · subst alone
    exact .inr leads
  · rw [List.getLast_cons alone, List.getLast_cons alone]
    exact .inl rfl

end Post

namespace Running

variable {given : Prop} {declared : Declarations} {result : Option Ty} {setting : Setting}
  {state next : Running}

theorem posts_ne_nil (state : Running) : state.posts ≠ [] := by simp [posts]

/-- Where the first function of a run is: at an instruction, or at the call that it waits for. -/
def outermost (state : Running) : Post := state.posts.getLast state.posts_ne_nil

theorem Advances.outermost {posts : List Post} (advances : Advances setting state posts)
    (waits : posts ≠ []) :
    posts.getLast waits = state.outermost ∨ Post.Leads state.outermost (posts.getLast waits) := by
  unfold Running.outermost
  simp only [Running.posts]
  cases advances with
  | next there plain => exact Post.Leads.getLast_cons (.next state.frame.post) _
  | call there found block =>
    rw [List.getLast_cons state.posts_ne_nil]
    exact .inl rfl
  | @goto _ block _ pending goes found =>
    have leads : Post.Leads state.frame.post (.start state.frame.function block) :=
      .goto goes.mem_successors found
    exact leads.getLast_cons _
  | giveBack pending ends waiting =>
    simp only [waiting, List.map_cons]
    rw [List.getLast_cons (List.cons_ne_nil _ _)]
    exact Post.Leads.getLast_cons (.next _) _

theorem Reaches.outermost (reaches : Reaches setting state next)
    (code : setting.contract.Typed declared)
    (typed : state.Typed False setting.contract declared result) (linked : state.Linked) :
    Relation.ReflTransGen Post.Leads state.outermost next.outermost := by
  induction reaches with
  | refl => exact .refl
  | @step state middle final leads further ih =>
    have later := ih (leads.reaches.typed code False.elim typed) (linked.move typed leads.move)
    rcases (linked.advances typed leads.move).outermost middle.posts_ne_nil with same | ahead
    · have stays : middle.outermost = state.outermost := same
      rwa [stays] at later
    · exact .head ahead later

def Runs (state : Running) (instruction : Instruction) : Prop :=
  ∃ location rest, state.frame.pending = ⟨instruction, location⟩ :: rest

theorem runs_of_head? {instruction : Instruction}
    (head : state.frame.pending.head?.map Located.node = some instruction) :
    state.Runs instruction := by
  obtain ⟨⟨_, location⟩, first, rfl⟩ := Option.map_eq_some_iff.mp head
  obtain ⟨rest, pending⟩ := List.head?_eq_some_iff.mp first
  exact ⟨location, rest, pending⟩

end Running

end Covenant
