import Mathlib.Logic.Relation
import Mathlib.Tactic.Common

/-!
# Programs that make requests

A program of this kind asks its surroundings for something, waits for the answer and goes on with
it. The surroundings (a `World`) answer, and they also move on their own while the program waits.
`Wp` is the weakest precondition of a program in such a world: whatever the world does in between,
the program only ever waits in states that are `ready` for its request, and if it ends it does so in
a state that meets the postcondition.

A request is verified with an assertion that the moves of the world keep (`Wp.ask_of_stable`), a
program that deals with one part of the world in a smaller world that has only this part
(`Wp.lift`), and a loop with an invariant (`Loop.invariant`).
-/

open Relation (ReflTransGen)

/-- A program that returns a value or makes a request and goes on with the answer. -/
inductive Prog (Op : Type) (Ans : Op → Type) (α : Type) : Type where
  | done (a : α)
  | ask (op : Op) (next : Ans op → Prog Op Ans α)

/-- The surroundings of a program. -/
structure World (Op : Type) (Ans : Op → Type) (W : Type) where
  /-- What happens without a request. -/
  moves : W → W → Prop
  answers : W → (op : Op) → Ans op → W → Prop

variable {Op : Type} {Ans : Op → Type} {α β W L S R : Type}

namespace Prog

protected def bind : Prog Op Ans α → (α → Prog Op Ans β) → Prog Op Ans β
  | done a, f => f a
  | ask op next, f => ask op fun a => (next a).bind f

instance : Monad (Prog Op Ans) where
  pure := done
  bind := Prog.bind

/-- The program that makes one request and returns the answer. -/
def request (op : Op) : Prog Op Ans (Ans op) := ask op done

@[simp] theorem pure_eq (a : α) : (pure a : Prog Op Ans α) = done a := rfl

@[simp] theorem done_bind (a : α) (f : α → Prog Op Ans β) : done a >>= f = f a := rfl

@[simp] theorem ask_bind (op : Op) (next : Ans op → Prog Op Ans α) (f : α → Prog Op Ans β) :
    ask op next >>= f = ask op fun a => next a >>= f := rfl

@[simp] theorem request_bind (op : Op) (f : Ans op → Prog Op Ans β) :
    request op >>= f = ask op f := rfl

end Prog

/-! ### Weakest preconditions -/

/-- However the world moves, the program waits in ready states only and ends with the postcondition.
-/
def Wp (world : World Op Ans W) (ready : Op → W → Prop) : Prog Op Ans α → (α → W → Prop) → W → Prop
  | .done a, post, w => post a w
  | .ask op next, post, w => ∀ w', ReflTransGen world.moves w w' →
      ready op w' ∧ ∀ a w'', world.answers w' op a w'' → Wp world ready (next a) post w''

namespace Wp

variable {world : World Op Ans W} {ready : Op → W → Prop} {p : Prog Op Ans α}
  {post post' : α → W → Prop} {w : W}

theorem mono (h : Wp world ready p post w) (hpost : ∀ a w, post a w → post' a w) :
    Wp world ready p post' w := by
  induction p generalizing w with
  | done a => exact hpost a w h
  | ask op next ih =>
    intro w' hmoves
    obtain ⟨hready, hnext⟩ := h w' hmoves
    exact ⟨hready, fun a w'' hans => ih a (hnext a w'' hans)⟩

theorem bind {f : α → Prog Op Ans β} {post : β → W → Prop}
    (h : Wp world ready p (fun a w => Wp world ready (f a) post w) w) :
    Wp world ready (p >>= f) post w := by
  induction p generalizing w with
  | done a => exact h
  | ask op next ih =>
    intro w' hmoves
    obtain ⟨hready, hnext⟩ := h w' hmoves
    exact ⟨hready, fun a w'' hans => ih a (hnext a w'' hans)⟩

theorem ask_of_stable {op : Op} {next : Ans op → Prog Op Ans α} (assertion : W → Prop)
    (hstable : ∀ w w', assertion w → world.moves w w' → assertion w')
    (hready : ∀ w, assertion w → ready op w)
    (hans : ∀ w a w', assertion w → world.answers w op a w' → Wp world ready (next a) post w')
    (hw : assertion w) :
    Wp world ready (.ask op next) post w := by
  intro w' hmoves
  have hw' : assertion w' := by
    induction hmoves with
    | refl => exact hw
    | tail _ hmove ih => exact hstable _ _ ih hmove
  exact ⟨hready w' hw', fun a w'' h => hans w' a w'' hw' h⟩

theorem of_move {w' : W} (h : Wp world ready p post w)
    (hpost : ∀ a w w', post a w → world.moves w w' → post a w') (hmove : world.moves w w') :
    Wp world ready p post w' := by
  cases p with
  | done a => exact hpost a w w' h hmove
  | ask op next => exact fun w'' hmoves => h w'' (.head hmove hmoves)

theorem lift {part : World Op Ans L} {ready' : Op → L → Prop} {view : W → L → Prop}
    {post : α → L → Prop} {l : L} (hready : ∀ op w l, view w l → ready' op l → ready op w)
    (hmoves : ∀ op w l w', view w l → ready' op l → world.moves w w' → ∃ l',
    ReflTransGen part.moves l l' ∧ view w' l')
    (hanswers : ∀ op w l a w', view w l → ready' op l → world.answers w op a w' → ∃ l',
    part.answers l op a l' ∧ view w' l') (hw : view w l) (h : Wp part ready' p post l) :
    Wp world ready p (fun a w => ∃ l, view w l ∧ post a l) w := by
  induction p generalizing w l with
  | done a => exact ⟨l, hw, h⟩
  | ask op next ih =>
    intro w' hrun
    have hstep : ∃ l', ReflTransGen part.moves l l' ∧ view w' l' := by
      induction hrun with
      | refl => exact ⟨l, .refl, hw⟩
      | tail _ hmove ih =>
        obtain ⟨l₁, hl₁, hview₁⟩ := ih
        obtain ⟨l₂, hl₂, hview₂⟩ := hmoves op _ l₁ _ hview₁ (h l₁ hl₁).1 hmove
        exact ⟨l₂, hl₁.trans hl₂, hview₂⟩
    obtain ⟨l', hl', hview'⟩ := hstep
    obtain ⟨hready', hnext⟩ := h l' hl'
    constructor
    · exact hready op w' l' hview' hready'
    · intro a w'' hans
      obtain ⟨l'', hl'', hview''⟩ := hanswers op w' l' a w'' hview' hready' hans
      exact ih a hview'' (hnext a l'' hl'')

end Wp

/-! ### Loops -/

namespace Loop

/-- A loop in the middle of a round: what is left of the round and the state of the world. A round
ends with the state for the next one or with the result of the loop. -/
structure Config (Op : Type) (Ans : Op → Type) (S R W : Type) where
  rest : Prog Op Ans (S ⊕ R)
  world : W

/-- What can happen next. Once the loop has ended the world still moves. -/
inductive Step (world : World Op Ans W) (body : S → Prog Op Ans (S ⊕ R)) :
    Config Op Ans S R W → Config Op Ans S R W → Prop where
  | move {p : Prog Op Ans (S ⊕ R)} {w w' : W} : world.moves w w' → Step world body ⟨p, w⟩ ⟨p, w'⟩
  | answer {op : Op} {next : Ans op → Prog Op Ans (S ⊕ R)} {a : Ans op} {w w' : W} :
    world.answers w op a w' →
      Step world body ⟨.ask op next, w⟩ ⟨next a, w'⟩
  | again {s : S} {w : W} : Step world body ⟨.done (.inl s), w⟩ ⟨body s, w⟩

/-- The loop and the world reach a configuration from the start of the loop. -/
def Reaches (world : World Op Ans W) (body : S → Prog Op Ans (S ⊕ R)) (s : S) (w : W) :
    Config Op Ans S R W → Prop :=
  ReflTransGen (Step world body) ⟨body s, w⟩

/-- What a round ends with: the invariant, or what the result is to mean. -/
def RoundEnds (inv : S → W → Prop) (final : R → W → Prop) : S ⊕ R → W → Prop
  | .inl s, w => inv s w
  | .inr r, w => final r w

theorem invariant {world : World Op Ans W} {ready : Op → W → Prop} {body : S → Prog Op Ans (S ⊕ R)}
    {inv : S → W → Prop} {final : R → W → Prop}
    (hinv : ∀ s w w', inv s w → world.moves w w' → inv s w')
    (hfinal : ∀ r w w', final r w → world.moves w w' → final r w')
    (hbody : ∀ s w, inv s w → Wp world ready (body s) (RoundEnds inv final) w) {s : S} {w : W}
    (hstart : inv s w) {c : Config Op Ans S R W} (h : Reaches world body s w c) :
    Wp world ready c.rest (RoundEnds inv final) c.world := by
  have hpost : ∀ r w w', RoundEnds inv final r w → world.moves w w' → RoundEnds inv final r w' := by
    rintro (s | r) w w' hr hmove
    · exact hinv s w w' hr hmove
    · exact hfinal r w w' hr hmove
  induction h with
  | refl => exact hbody s w hstart
  | tail _ hstep ih =>
    cases hstep with
    | move hmove => exact ih.of_move hpost hmove
    | answer hans => exact (ih _ .refl).2 _ _ hans
    | again => exact hbody _ _ ih

theorem always {world : World Op Ans W} {ready : Op → W → Prop} {inv : S → W → Prop}
    {final : R → W → Prop} {safe : W → Prop} (hready : ∀ op w, ready op w → safe w)
    (hinv : ∀ s w, inv s w → safe w) (hfinal : ∀ r w, final r w → safe w) {c : Config Op Ans S R W}
    (h : Wp world ready c.rest (RoundEnds inv final) c.world) : safe c.world := by
  obtain ⟨p, w⟩ := c
  cases p with
  | done r =>
    cases r with
    | inl s => exact hinv s w h
    | inr r => exact hfinal r w h
  | ask op next => exact hready op w (h w .refl).1

end Loop
