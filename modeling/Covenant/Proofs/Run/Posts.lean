import Covenant.Proofs.Run.Moves
import Covenant.Proofs.Run.Soundness
import Mathlib.Data.List.Chain

/-!
Where running code is: in the innermost call, and in each call that waits for the one above it. A
step takes the innermost call one instruction further or to another block, puts a call on top of it,
or takes it away.
-/

namespace Covenant

/-- A place in the code of a function: an instruction of a block, or the end of the block. -/
structure Post where
  function : Function
  block : BasicBlock
  index : Nat

namespace Post

def instruction? (post : Post) : Option (Located Instruction) :=
  post.block.instructions[post.index]?

def next (post : Post) : Post := { post with index := post.index + 1 }

def start (function : Function) (block : BasicBlock) : Post := ⟨function, block, 0⟩

structure Stands (contract : Contract) (declared : Declarations) (post : Post) : Prop where
  member : post.function ∈ contract.functions
  function : ∃ types, post.function.Typed declared types
  block : post.function.block? post.block.id = some post.block
  reached : post.function.Reaches post.block.id

def Serves (upper lower : Post) : Prop :=
  ∃ dest args location, lower.instruction? = some ⟨.call dest upper.function.name args, location⟩

end Post

def Frame.post (frame : Frame) : Post :=
  ⟨frame.function, frame.block, frame.block.instructions.length - frame.pending.length⟩

def Caller.post (caller : Caller) : Post :=
  { caller.frame.post with index := caller.frame.post.index - 1 }

namespace Running

def posts (state : Running) : List Post := state.frame.post :: state.callers.map Caller.post

structure Linked (state : Running) : Prop where
  serves : state.posts.IsChain Post.Serves
  behind : ∀ caller ∈ state.callers, caller.post.next = caller.frame.post

inductive Advances (setting : Setting) (state : Running) : List Post → Prop
  | next {instruction} : state.frame.post.instruction? = some instruction →
      (∀ dest name args, instruction.node ≠ .call dest name args) →
      Advances setting state (state.frame.post.next :: state.callers.map Caller.post)
  | call {dest name args location callee block} :
      state.frame.post.instruction? = some ⟨.call dest name args, location⟩ →
      setting.contract.function? name = some callee → callee.block? callee.entry = some block →
      Advances setting state (.start callee block :: state.posts)
  | goto {target block effects} : state.frame.pending = [] →
      state.frame.Goes state.effects state.frame.block.terminator.location
        state.frame.block.terminator.node target effects →
      state.frame.function.block? target = some block →
      Advances setting state (.start state.frame.function block :: state.callers.map Caller.post)
  | giveBack {caller callers value} : state.frame.pending = [] → state.frame.block.terminator.node =
      .ret value →
      state.callers = caller :: callers →
      Advances setting state (caller.post.next :: callers.map Caller.post)

end Running

theorem Contract.Typed.of_frame {contract : Contract} {declared : Declarations}
    (code : contract.Typed declared) {name : String} {function : Function}
    (found : contract.function? name = some function) {args : List Nat}
    (count : function.params.length = args.length) {frame : Frame}
    (framed : function.frame (function.entryCells args) = .ok frame) (storage : Storage) :
    Running.Typed False contract declared function.returns ⟨frame, [], Effects.start storage⟩ := by
  obtain ⟨begun, again, typed⟩ :=
    code.start found count (False.elim : False → storage.Fits contract)
  obtain rfl := Except.ok.inj (framed.symm.trans again)
  exact typed

/-! Frames. -/

section Frames

variable {given : Prop} {contract : Contract} {declared : Declarations} {types : List Ty}
  {awaited : Option ValueId} {frame : Frame} {instruction : Located Instruction}
  {rest : List (Located Instruction)}

namespace Frame

theorem post_started (frame : Frame) (block : BasicBlock) :
    (frame.started block).post = .start frame.function block := by
  simp [post, started, Post.start]

theorem post_of_pending (pending : frame.pending = []) :
    frame.post = ⟨frame.function, frame.block, frame.block.instructions.length⟩ := by
  simp [post, pending]

theorem post_eq {other : Frame} (function : other.function = frame.function)
    (block : other.block = frame.block) (pending : other.pending = frame.pending) :
    other.post = frame.post := by
  simp only [post, function, block, pending]

namespace Typed

theorem post_stands (typed : frame.Typed given contract declared types awaited) :
    frame.post.Stands contract declared :=
  ⟨typed.member, ⟨types, typed.function⟩, typed.block, typed.reached⟩

theorem instruction?_post (typed : frame.Typed given contract declared types awaited)
    (pending : frame.pending = instruction :: rest) :
    frame.post.instruction? = some instruction := by
  obtain ⟨done, split, _⟩ := typed.place
  simp [post, Post.instruction?, split, pending]

theorem post_past (typed : frame.Typed given contract declared types awaited)
    (pending : frame.pending = instruction :: rest) : (frame.past rest).post = frame.post.next := by
  obtain ⟨done, split, _⟩ := typed.place
  have count : frame.block.instructions.length - rest.length =
      frame.block.instructions.length - frame.pending.length + 1 := by
    rw [split, pending, List.length_append, List.length_cons]
    omega
  exact congrArg (Post.mk frame.function frame.block) count

end Typed

end Frame

theorem Caller.post_receive (caller : Caller) (value : Option Cell) :
    (caller.receive value).post = caller.frame.post := by
  unfold Caller.receive
  split <;> rfl

theorem Caller.Waiting.stands {result returns : Option Ty} {callers : List Caller}
    (waiting : Waiting given contract declared result returns callers) :
    ∀ post ∈ callers.map Caller.post, post.Stands contract declared := by
  intro post member
  obtain ⟨caller, listed, rfl⟩ := List.mem_map.mp member
  obtain ⟨_, types, typed⟩ := waiting.typed caller listed
  have stands := typed.frame.post_stands
  exact ⟨stands.member, stands.function, stands.block, stands.reached⟩

end Frames

/-! Steps. -/

namespace Running

variable {given : Prop} {declared : Declarations} {result : Option Ty} {setting : Setting}
  {state next : Running}

theorem Typed.stands {contract : Contract} (typed : state.Typed given contract declared result) :
    ∀ post ∈ state.posts, post.Stands contract declared := by
  obtain ⟨types, standing⟩ := typed.frame
  exact List.forall_mem_cons.mpr ⟨standing.post_stands, typed.callers.stands⟩

/-- A step changes where code is in one of four ways. -/
theorem Linked.advances (linked : state.Linked)
    (typed : state.Typed given setting.contract declared result) (move : Move setting state next) :
    Advances setting state next.posts := by
  obtain ⟨types, standing⟩ := typed.frame
  cases move with
  | @instruct instruction rest frame effects pending does =>
    obtain ⟨function, block, left⟩ := does.place_eq
    have post : frame.post = state.frame.post.next :=
      (Frame.post_eq function block left).trans (standing.post_past pending)
    have plain : ∀ dest name args, instruction.node ≠ .call dest name args := by
      intro dest name args calls
      rw [calls] at does
      cases does
    rw [posts, post]
    exact .next (standing.instruction?_post pending) plain
  | @call dest name args location rest callee cells frame pending found listed framed =>
    obtain ⟨rfl, block, whole⟩ := Function.frame_eq_ok framed
    have start : frame.post = .start frame.function frame.block := by
      simp [Frame.post, Post.start, whole]
    have waits : Caller.post ⟨state.frame.past rest, dest⟩ = state.frame.post := by
      simp only [Caller.post, standing.post_past pending, Post.next, Nat.add_sub_cancel]
    simp only [posts, start, List.map_cons, waits]
    exact .call (standing.instruction?_post pending) found block
  | @goto target block effects pending goes found =>
    simp only [posts, Frame.post_started]
    exact .goto pending goes found
  | @giveBack caller callers value effects pending yields waiting =>
    rw [posts, caller.post_receive, ← linked.behind caller (by simp [waiting])]
    generalize ends : state.frame.block.terminator.node = node at yields
    cases yields with
    | nothing => exact .giveBack pending ends waiting
    | value held => exact .giveBack pending ends waiting

theorem Linked.move (linked : state.Linked)
    (typed : state.Typed given setting.contract declared result) (move : Move setting state next) :
    next.Linked := by
  obtain ⟨types, standing⟩ := typed.frame
  obtain ⟨serves, behind⟩ := linked
  have moved {post : Post} (same : post.function = state.frame.function) :
      (post :: state.callers.map Caller.post).IsChain Post.Serves := by
    rw [posts, List.isChain_cons] at serves
    rw [List.isChain_cons]
    refine ⟨fun lower first => ?_, serves.2⟩
    obtain ⟨dest, args, location, calls⟩ := serves.1 lower first
    exact ⟨dest, args, location, by rw [same]; exact calls⟩
  cases move with
  | @instruct instruction rest frame effects pending does => exact ⟨moved does.place_eq.1, behind⟩
  | @call dest name args location rest callee cells frame pending found listed framed =>
    obtain ⟨rfl, _, _⟩ := Function.frame_eq_ok framed
    obtain ⟨_, rfl⟩ := Contract.mem_of_function? found
    have past := standing.post_past pending
    have waits : Caller.post ⟨state.frame.past rest, dest⟩ = state.frame.post := by
      simp only [Caller.post, past, Post.next, Nat.add_sub_cancel]
    refine ⟨?_, List.forall_mem_cons.mpr ⟨by rw [waits]; exact past.symm, behind⟩⟩
    rw [posts, List.map_cons, waits]
    exact .cons_cons ⟨dest, args, location, standing.instruction?_post pending⟩ serves
  | goto pending goes found => exact ⟨moved rfl, behind⟩
  | @giveBack caller callers value effects pending yields waiting =>
    rw [waiting] at behind
    rw [posts, waiting, List.map_cons, List.isChain_cons_cons, List.isChain_cons] at serves
    refine ⟨?_, fun other member => behind other (List.mem_cons_of_mem _ member)⟩
    rw [posts, List.isChain_cons]
    refine ⟨fun lower first => ?_, serves.2.2⟩
    obtain ⟨dest, args, location, calls⟩ := serves.2.1 lower first
    refine ⟨dest, args, location, ?_⟩
    rw [caller.post_receive]
    exact calls

theorem linked_start (frame : Frame) (effects : Effects) : Linked ⟨frame, [], effects⟩ :=
  ⟨.singleton _, by simp⟩

theorem Reaches.linked (reaches : Reaches setting state next)
    (code : setting.contract.Typed declared) (env : given → setting.env.Fits)
    (typed : state.Typed given setting.contract declared result) (linked : state.Linked) :
    next.Linked := by
  induction reaches with
  | refl => exact linked
  | step leads _ ih => exact ih (leads.reaches.typed code env typed) (linked.move typed leads.move)

end Running

end Covenant
