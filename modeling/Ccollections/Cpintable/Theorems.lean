import Ccollections.Cpintable.Lemmas.Step

/-!
# Pins and retires of ccol_pintable
-/

namespace Ccollections.Cpintable

/-- Once a scan that started after a retire returns 0, no thread holds or ever gets a pin of the retired occupancy. -/
theorem ccol_pintable_pin_retire_safe {T : Type} [Fintype T] [DecidableEq T] {acts : List (T × Act)} {s : State T}
    (h : (State.init T).steps acts = some s) :
    (∀ t idx after, (s.threads t).pc = .pinsReturn idx 0 after → ∀ gen ∈ after, ∀ more s', s.steps more = some s' →
      ∀ t', ∀ pin ∈ (s'.threads t').held, ¬(handleIdx pin.1 = idx ∧ handleGen pin.1 = gen)) ∧
    (∀ t, ∀ pin ∈ (s.threads t).held, (handleGen pin.1, pin.2) ∈ s.published (handleIdx pin.1) ∧
      ∀ ptr, (handleGen pin.1, ptr) ∈ s.published (handleIdx pin.1) → ptr = pin.2) := by
  have hs : Inv s := Inv.init.steps h
  constructor
  · intro t idx after hpc gen hgen more s' hmore t' pin hpin hpinned
    have hscanned : Scanned s t idx gen := .inl ⟨after, hpc, hgen⟩
    exact (hscanned.steps hmore).not_holds (hs.steps hmore) t' (.inl ⟨pin, hpin, hpinned⟩)
  · intro t pin hpin
    have hpub := hs.held t pin hpin
    refine ⟨hpub, fun ptr hptr => ?_⟩
    have heq := List.inj_on_of_nodup_map (hs.distinct (handleIdx pin.1)) hptr hpub rfl
    exact congrArg Prod.snd heq

/-- A reader pins generation 1 of slot 0, the writer retires it, one scan sees the pin, and one after the release
returns. -/
def pinnedRun : List (Bool × Act) :=
  [(true, .lock), (true, .publish 0 1 7)] ++ List.replicate 6 (true, .go true) ++ [(false, .pin 1)] ++
    List.replicate 7 (false, .go true) ++ [(true, .retire 0)] ++ List.replicate 3 (true, .go true) ++ [(true, .pins 0)] ++
    List.replicate 12 (true, .go true) ++ [(false, .unpin 1)] ++ List.replicate 3 (false, .go true) ++ [(true, .pins 0)] ++
    List.replicate 11 (true, .go true)

theorem ccol_pintable_pin_retire_safe_run :
    ∃ s : State Bool, (State.init Bool).steps pinnedRun = some s ∧ (s.threads true).pc = .pinsReturn 0 0 [1] ∧
      ∀ more s', s.steps more = some s' → ∀ t', ∀ pin ∈ (s'.threads t').held, ¬(handleIdx pin.1 = 0 ∧ handleGen pin.1 = 1) := by
  have hpc : ((State.init Bool).steps pinnedRun).map (fun s => (s.threads true).pc) = some (.pinsReturn 0 0 [1]) := rfl
  obtain ⟨s, hrun, hreturn⟩ := Option.map_eq_some_iff.mp hpc
  exact ⟨s, hrun, hreturn,
    (ccol_pintable_pin_retire_safe hrun).1 true 0 [1] hreturn 1 (List.mem_singleton.mpr rfl)⟩

end Ccollections.Cpintable
