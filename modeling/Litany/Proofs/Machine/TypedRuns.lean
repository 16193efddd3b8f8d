import Litany.Proofs.Machine.Laws
import Litany.Proofs.Machine.Typing

/-!
# Runs that are typed throughout

A run of a well-scoped program that begins on a typed machine is typed at every moment: being typed
is a law for well-scoped acts (`typed_law`). So every moment that a run leads to is sound
(`Moment.Sound.of_leads`), and so is the machine in which its part ends, with an answer or at a stop
(`Moment.Sound.finish`).
-/

namespace Litany

open Run

/-- Well-scoped acts keep a machine typed, each call in a frame that holds what the procedure asks
for. -/
theorem typed_law {names : Names} (hdotless : names.Dotless) :
    Law (fun stack => Act.Scoped names (Scope.within stack))
      fun stack m => m.Typed names stack where
  aside := fun _ _ hm => ⟨hm.globals, hm.equipped, hm.frames⟩
  visit := by
    rintro stack p v m later (hp | ⟨hp, -⟩ | ⟨hp, -⟩) hm hvisit <;>
      exact (typed_of_visit hdotless hp hm hvisit).1
  store := by
    rintro stack p v kept m later (⟨hp, hscalar⟩ | ⟨⟨hp, -⟩, hzero⟩) hm hstore
    · exact typed_of_store hdotless hp (Or.inr hscalar) hm hstore
    · exact typed_of_store hdotless hp (Or.inl hzero) hm hstore
  install := fun ⟨_, hq⟩ hm => typed_install hq hm
  body := by
    intro stack ordinal count name p m _ hm hp
    obtain ⟨rfl, hfits⟩ := hm.installed hp
    exact hfits.acts
  enter := by
    -- the procedure that is found, not the declared one, says what the new frame has to hold
    intro stack ordinal name es p run values m later _ hm hp hvalues hlater
    obtain ⟨rfl, hfits⟩ := hm.installed hp
    exact typed_push hfits hlater (suited_of_evaluateArguments hvalues)
  leave := typed_pop

/-- A moment with a well-scoped part and a typed machine. -/
def Moment.Sound (names : Names) (k : Moment) : Prop :=
  k.Obeys (fun stack => Act.Scoped names (Scope.within stack)) fun stack m => m.Typed names stack

namespace Moment.Sound

variable {names : Names} {executor : Option Executor} {k : Moment}

theorem typed (h : k.Sound names) : k.machine.Typed names k.stack :=
  h.holds

/-- Every moment that a sound one leads to is sound. -/
theorem of_leads (hdotless : names.Dotless) {k' : Moment} (hleads : k.Leads executor k')
    (h : k.Sound names) : k'.Sound names :=
  (typed_law hdotless).of_leads hleads h

/-- A part of a sound moment ends in a typed machine, with an answer or at a stop. -/
theorem finish (hdotless : names.Dotless) (h : k.Sound names) :
    (k.finish executor).Typed names k.stack :=
  Law.finish (typed_law hdotless) h

end Moment.Sound

end Litany
