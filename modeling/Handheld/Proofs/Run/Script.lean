import Handheld.Machine.Step

/-!
# Scripts

A script is a computation as its surroundings see it: the calls it makes, each
followed by what it does with the answer, and the events its host learns of.
`Script.Mirrors` says that one script shows event for event what another shows.
-/

namespace Handheld

inductive Script (α : Type)
  | done (a : α)
  | call (c : Call) (resume : c.Answer → Script α)
  /-- The host learns of an event, and then there is more. -/
  | tell (e : Event) (rest : Script α)

/-- One thing that the surroundings see. -/
inductive Observation
  | exchange (c : Call) (answer : c.Answer)
  | event (e : Event)

def Observation.mapEvent (f : Event → Event) : Observation → Observation
  | .exchange c answer => .exchange c answer
  | .event e => .event (f e)

namespace Script

variable {α β γ δ : Type}

/-! ## One script after another -/

def bind (t : Script α) (f : α → Script β) : Script β :=
  match t with
  | .done a => f a
  | .call c resume => .call c fun answer => (resume answer).bind f
  | .tell e rest => .tell e (rest.bind f)

@[simp] theorem done_bind (a : α) (f : α → Script β) : (done a).bind f = f a := rfl

@[simp] theorem call_bind (c : Call) (resume : c.Answer → Script α) (f : α → Script β) :
    (call c resume).bind f = call c fun answer => (resume answer).bind f := rfl

@[simp] theorem tell_bind (e : Event) (rest : Script α) (f : α → Script β) :
    (tell e rest).bind f = tell e (rest.bind f) := rfl

theorem bind_assoc (t : Script α) (f : α → Script β) (g : β → Script γ) :
    (t.bind f).bind g = t.bind fun a => (f a).bind g := by
  induction t with
  | done a => rfl
  | call c resume ih =>
    simp only [call_bind]
    congr 1
    funext answer
    exact ih answer
  | tell e rest ih => simp only [tell_bind, ih]

theorem bind_done (t : Script α) : t.bind done = t := by
  induction t with
  | done a => rfl
  | call c resume ih =>
    simp only [call_bind]
    congr 1
    funext answer
    exact ih answer
  | tell e rest ih => simp only [tell_bind, ih]

/-! ## What a script shows -/

/-- If the calls are answered as in the list, the script shows just the list and comes to the
value. -/
inductive Shows : Script α → List Observation → α → Prop
  | done (a : α) : Shows (.done a) [] a
  | call {c : Call} {resume : c.Answer → Script α} {answer : c.Answer} {os : List Observation}
      {a : α} : Shows (resume answer) os a → Shows (.call c resume) (.exchange c answer :: os) a
  | tell {e : Event} {rest : Script α} {os : List Observation} {a : α} :
      Shows rest os a → Shows (.tell e rest) (.event e :: os) a

theorem Shows.bind {t : Script α} {f : α → Script β} {os os' : List Observation} {a : α} {b : β}
    (ht : t.Shows os a) (hf : (f a).Shows os' b) : (t.bind f).Shows (os ++ os') b := by
  induction ht with
  | done a => exact hf
  | call _ ih => exact .call (ih hf)
  | tell _ ih => exact .tell (ih hf)

theorem Shows.of_bind {t : Script α} {f : α → Script β} {os : List Observation} {b : β}
    (h : (t.bind f).Shows os b) :
    ∃ os₁ os₂ a, os = os₁ ++ os₂ ∧ t.Shows os₁ a ∧ (f a).Shows os₂ b := by
  induction t generalizing os with
  | done a => exact ⟨[], os, a, rfl, .done a, h⟩
  | call c resume ih =>
    cases h with
    | call h =>
      obtain ⟨os₁, os₂, a, rfl, hfirst, hrest⟩ := ih _ h
      exact ⟨_ :: os₁, os₂, a, rfl, .call hfirst, hrest⟩
  | tell e rest ih =>
    cases h with
    | tell h =>
      obtain ⟨os₁, os₂, a, rfl, hfirst, hrest⟩ := ih h
      exact ⟨_ :: os₁, os₂, a, rfl, .tell hfirst, hrest⟩

/-! ## Scripts that show the same -/

/-- The scripts make the same calls whatever they are answered, the left one tells `f e` where the
right one tells `e`, and they come to values that are related. -/
inductive Mirrors (f : Event → Event) (R : α → β → Prop) : Script α → Script β → Prop
  | done {a : α} {b : β} : R a b → Mirrors f R (.done a) (.done b)
  | call {c : Call} {resume : c.Answer → Script α} {resume' : c.Answer → Script β} :
      (∀ answer, Mirrors f R (resume answer) (resume' answer)) →
      Mirrors f R (.call c resume) (.call c resume')
  | tell {e : Event} {rest : Script α} {rest' : Script β} :
      Mirrors f R rest rest' → Mirrors f R (.tell (f e) rest) (.tell e rest')

namespace Mirrors

variable {f : Event → Event} {R : α → β → Prop}

theorem mono {R' : α → β → Prop} {t : Script α} {u : Script β} (h : Mirrors f R t u)
    (hR : ∀ a b, R a b → R' a b) : Mirrors f R' t u := by
  induction h with
  | done h => exact .done (hR _ _ h)
  | call _ ih => exact .call ih
  | tell _ ih => exact .tell ih

theorem bind {S : γ → δ → Prop} {t : Script α} {u : Script β} {g : α → Script γ}
    {g' : β → Script δ} (h : Mirrors f R t u) (hg : ∀ a b, R a b → Mirrors f S (g a) (g' b)) :
    Mirrors f S (t.bind g) (u.bind g') := by
  induction h with
  | done h => exact hg _ _ h
  | call _ ih => exact .call ih
  | tell _ ih => exact .tell ih

/-- Whatever the right script shows, the left one shows as well. -/
theorem shows {t : Script α} {u : Script β} {os : List Observation} {b : β}
    (h : Mirrors f R t u) (hu : u.Shows os b) :
    ∃ a, t.Shows (os.map (.mapEvent f)) a ∧ R a b := by
  induction hu generalizing t with
  | done b =>
    cases h with
    | done h => exact ⟨_, .done _, h⟩
  | call _ ih =>
    cases h with
    | call h =>
      obtain ⟨a, ha, hR⟩ := ih (h _)
      exact ⟨a, .call ha, hR⟩
  | tell _ ih =>
    cases h with
    | tell h =>
      obtain ⟨a, ha, hR⟩ := ih h
      exact ⟨a, .tell ha, hR⟩

end Mirrors

end Script

end Handheld
