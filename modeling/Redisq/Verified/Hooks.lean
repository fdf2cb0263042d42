import Mathlib.Data.List.Chain
import Redisq.Model.PauseLoop

/-!
# Hooks follow the pause

A hook hears the pause change, each time to the other value.  Whenever what
the loop last told is not the pause, a kick is buffered, or is on its way, or
the loop has still to load the pause; so a loop that waits, with no kick
buffered or on its way, has told the pause as it is.  Once the key stays as it
is, one sweep brings the pause in line with it for good
(`pause_hooks_follow`), unless the loop has yet to store what it read before
the last change (`overtakenReply_diverges`).
-/

namespace Redisq.Model

/-- The loop has still to load the pause since it took a kick. -/
def LoopPoint.loads : LoopPoint → Bool
  | .unflagging => true
  | .reading => true
  | .asking _ => true
  | .comparing _ _ => true
  | .storing _ => true
  | .loading => true
  | _ => false

/-- The loop does not tell anything. -/
def LoopPoint.silent : LoopPoint → Bool
  | .listing _ => false
  | .calling _ _ => false
  | _ => true

theorem LoopPoint.silent_ite {c : Prop} [Decidable c] {l l' : LoopPoint} (h : l.silent = true)
    (h' : l'.silent = true) : (if c then l else l').silent = true := by
  split
  · exact h
  · exact h'

/-- An event that leaves the key `k`, and starts nothing but pops and sweeps. -/
def PauseEvent.Calm (k : Bool) : PauseEvent → Prop
  | .change key => key = k
  | .start _ call => ∃ sweep, call = .looking sweep
  | _ => True

namespace PauseWorld

/-- A call is between its update and its kick. -/
def Kicks (w : PauseWorld) : Prop :=
  ∃ c, w.calls c = some .starting ∨ w.calls c = some .kicking

/-- The loop waits, and no kick is buffered or on its way. -/
def Rests (w : PauseWorld) : Prop :=
  w.loop = .waiting ∧ w.kick = false ∧ ¬w.Kicks

/-- The hook is still to be called with what is being told. -/
def Pending (w : PauseWorld) (h : ℕ) : Prop :=
  match w.loop with
  | .listing _ => h ∈ w.hooks
  | .calling _ fns => h ∈ fns
  | _ => False

/-! ## No kick is lost -/

/-- What differs from what was told is attended to. -/
def Attended (w : PauseWorld) : Prop :=
  w.told ≠ w.paused → w.kick = true ∨ w.Kicks ∨ w.loop.loads = true

section Attended

variable {w w' : PauseWorld} {c : ℕ} {call : PauseCall} {ev : PauseEvent}

/-- A kick on its way stays on its way while other calls go on. -/
theorem Kicks.other (h : w.Kicks) (hcall : w.calls c ≠ some .starting)
    (hcall' : w.calls c ≠ some .kicking) {x : Option PauseCall}
    (hcalls : w'.calls = Function.update w.calls c x) : w'.Kicks := by
  obtain ⟨c', hc'⟩ := h
  have hne : c' ≠ c := by
    rintro rfl
    exact hc'.elim hcall hcall'
  refine ⟨c', ?_⟩
  rw [hcalls, Function.update_of_ne hne]
  exact hc'

/-- What attends to the difference before a step still does. -/
theorem Attended.of_same (h : w.Attended) (htold : w'.told = w.told)
    (hpaused : w'.paused = w.paused) (hkick : w.kick = true → w'.kick = true)
    (hkicks : w.Kicks → w'.Kicks) (hloads : w.loop.loads = true → w'.loop.loads = true) :
    w'.Attended := by
  intro hne
  rw [htold, hpaused] at hne
  exact (h hne).imp hkick (Or.imp hkicks hloads)

theorem Attended.advance (h : w.Attended) (hc : w.calls c = some call) :
    Attended { (w.advance call).1 with
      calls := Function.update w.calls c (w.advance call).2 } := by
  have hother : call ≠ .starting → call ≠ .kicking → ∀ {w' : PauseWorld} {x},
      w'.calls = Function.update w.calls c x → w.Kicks → w'.Kicks := by
    intro hstarting hkicking w' x hcalls hkicks
    refine hkicks.other (c := c) ?_ ?_ hcalls
    · rw [hc]
      exact fun heq => hstarting (Option.some.inj heq)
    · rw [hc]
      exact fun heq => hkicking (Option.some.inj heq)
  cases call with
  | swapping p =>
      by_cases hsame : w.paused = p
      · exact h.of_same rfl hsame.symm id (hother (by simp) (by simp) rfl) id
      · refine fun _ => Or.inr (Or.inl ⟨c, Or.inl ?_⟩)
        show Function.update w.calls c (w.advance (.swapping p)).2 c = some .starting
        rw [Function.update_self]
        exact if_pos hsame
  | starting => exact fun _ => Or.inr (Or.inl ⟨c, Or.inr (Function.update_self ..)⟩)
  | kicking => exact fun _ => Or.inl rfl
  | _ => exact h.of_same rfl rfl id (hother (by simp) (by simp) rfl) id

theorem Attended.turn (h : w.Attended) (hturn : w.LoopTurn w') : w'.Attended := by
  cases hturn with
  | kicked hloop hkick => exact fun _ => Or.inr (Or.inr rfl)
  | unflagged hloop =>
      refine fun _ => Or.inr (Or.inr ?_)
      show (if w.recheck then LoopPoint.reading else LoopPoint.loading).loads = true
      split <;> rfl
  | read hloop => exact fun _ => Or.inr (Or.inr rfl)
  | asked g hloop => exact fun _ => Or.inr (Or.inr rfl)
  | failed g hloop => exact fun _ => Or.inr (Or.inr rfl)
  | compared g n hloop =>
      refine fun _ => Or.inr (Or.inr ?_)
      show (if w.gen = g then LoopPoint.storing n else LoopPoint.loading).loads = true
      split <;> rfl
  | stored n hloop => exact fun _ => Or.inr (Or.inr rfl)
  | agrees hloop heq => exact fun hne => absurd heq.symm hne
  | tells hloop hne => exact fun hne' => absurd rfl hne'
  | lists now fns hloop =>
      exact h.of_same rfl rfl id id fun hloads => by rw [hloop] at hloads; cases hloads
  | calls now f fns hloop =>
      exact h.of_same rfl rfl id id fun hloads => by rw [hloop] at hloads; cases hloads
  | returns now hloop =>
      exact h.of_same rfl rfl id id fun hloads => by rw [hloop] at hloads; cases hloads
  | ends hloop =>
      exact h.of_same rfl rfl id id fun hloads => by rw [hloop] at hloads; cases hloads

theorem Attended.step (h : w.Attended) (hchange : w.Change ev w') : w'.Attended := by
  cases hchange with
  | starts c call hev hnew hfirst =>
      refine h.of_same rfl rfl id (fun hkicks => hkicks.other (c := c) ?_ ?_ rfl) id
      · rw [hnew]
        exact nofun
      · rw [hnew]
        exact nofun
  | advances c call hev hcall => exact h.advance hcall
  | fails c sweep g hev hcall =>
      refine h.of_same rfl rfl id (fun hkicks => hkicks.other (c := c) ?_ ?_ rfl) id
      · rw [hcall]
        exact nofun
      · rw [hcall]
        exact nofun
  | turns w' hturn => exact h.turn hturn
  | _ => exact h

end Attended

/-! ## Hooks hear alternating values -/

/-- What the hooks were called with, and are going to be. -/
structure Heard (w : PauseWorld) : Prop where
  hooks : w.hooks ⊆ w.known
  fns : ∀ now fns, w.loop = .calling now fns → fns.Nodup ∧ ∀ h ∈ fns, h ∈ w.known
  listing : ∀ now, w.loop = .listing now → now = w.told
  calling : ∀ now fns, w.loop = .calling now fns → now = w.told
  unknown : ∀ h, h ∉ w.known → w.seen h = []
  alternates : ∀ h, List.IsChain (· ≠ ·) (w.seen h)
  pending : ∀ h, w.Pending h → ∀ v ∈ (w.seen h).head?, v ≠ w.told
  current : ∀ h ∈ w.hooks, ¬w.Pending h → ∀ v ∈ (w.seen h).head?, v = w.told

section Heard

variable {w w' : PauseWorld} {ev : PauseEvent}

theorem not_pending {h : ℕ} (hsilent : w.loop.silent = true) : ¬w.Pending h := by
  unfold Pending
  split
  · next now hloop => rw [hloop] at hsilent; cases hsilent
  · next now fns hloop => rw [hloop] at hsilent; cases hsilent
  · exact id

theorem Heard.of_silent (hheard : w.Heard) (hsilent : w.loop.silent = true)
    (hsilent' : w'.loop.silent = true) (hhooks : w'.hooks = w.hooks)
    (hknown : w'.known = w.known) (hseen : w'.seen = w.seen) (htold : w'.told = w.told) :
    w'.Heard where
  hooks := by rw [hhooks, hknown]; exact hheard.hooks
  fns now fns hloop := by rw [hloop] at hsilent'; cases hsilent'
  listing now hloop := by rw [hloop] at hsilent'; cases hsilent'
  calling now fns hloop := by rw [hloop] at hsilent'; cases hsilent'
  unknown h hh := by rw [hseen]; exact hheard.unknown h (hknown ▸ hh)
  alternates h := by rw [hseen]; exact hheard.alternates h
  pending h hp := absurd hp (not_pending hsilent')
  current h hh _ v hv := by
    rw [hseen] at hv
    rw [htold]
    exact hheard.current h (hhooks ▸ hh) (not_pending hsilent) v hv

theorem Heard.of_same (hheard : w.Heard) (hloop : w'.loop = w.loop) (hhooks : w'.hooks = w.hooks)
    (hknown : w'.known = w.known) (hseen : w'.seen = w.seen) (htold : w'.told = w.told) :
    w'.Heard := by
  have hpending : ∀ h, w'.Pending h ↔ w.Pending h := fun h => by
    rw [Pending, Pending, hloop, hhooks]
  exact
    { hooks := by rw [hhooks, hknown]; exact hheard.hooks
      fns := fun now fns h => hknown ▸ hheard.fns now fns (hloop ▸ h)
      listing := fun now h => htold ▸ hheard.listing now (hloop ▸ h)
      calling := fun now fns h => htold ▸ hheard.calling now fns (hloop ▸ h)
      unknown := fun h hh => hseen ▸ hheard.unknown h (hknown ▸ hh)
      alternates := fun h => hseen ▸ hheard.alternates h
      pending := fun h hp => by
        rw [hseen, htold]
        exact hheard.pending h ((hpending h).mp hp)
      current := fun h hh hp => by
        rw [hseen, htold]
        exact hheard.current h (hhooks ▸ hh) fun hp' => hp ((hpending h).mpr hp') }

/-- Calls leave to the loop what the hooks hear. -/
theorem Heard.advance (hheard : w.Heard) (call : PauseCall) (calls : ℕ → Option PauseCall) :
    Heard { (w.advance call).1 with calls := calls } := by
  cases call with
  | starting =>
      by_cases hoff : w.loop = .off
      · refine hheard.of_silent (by rw [hoff]; rfl) ?_ rfl rfl rfl rfl
        show (if w.loop = .off then LoopPoint.waiting else w.loop).silent = true
        rw [if_pos hoff]
        rfl
      · exact hheard.of_same (if_neg hoff) rfl rfl rfl rfl
  | _ => exact hheard.of_same rfl rfl rfl rfl rfl

/-- The loop finds the pause changed: every hook is to hear of it. -/
theorem Heard.tells (hheard : w.Heard) (hloop : w.loop = .loading) (hne : w.paused ≠ w.told) :
    Heard { w with told := w.paused, loop := .listing w.paused } where
  hooks := hheard.hooks
  fns now fns h := nomatch h
  listing now h := (LoopPoint.listing.inj h).symm
  calling now fns h := nomatch h
  unknown := hheard.unknown
  alternates := hheard.alternates
  pending h hh v hv := by
    have hbefore : v = w.told :=
      hheard.current h hh (not_pending (by rw [hloop]; rfl)) v hv
    rw [hbefore]
    exact hne.symm
  current h hh hp := absurd hh hp

/-- It lists them. -/
theorem Heard.lists (hheard : w.Heard) {now : Bool} {fns : List ℕ} (hloop : w.loop = .listing now)
    (hnodup : fns.Nodup) (hfns : fns.toFinset = w.hooks) :
    Heard { w with loop := .calling now fns } := by
  have hmem : ∀ h, h ∈ fns ↔ h ∈ w.hooks := fun h => by rw [← hfns, List.mem_toFinset]
  have hpending : ∀ h, w.Pending h ↔ h ∈ w.hooks := fun h => by rw [Pending, hloop]
  exact
    { hheard with
      fns := fun now' fns' h => by
        obtain ⟨-, rfl⟩ := LoopPoint.calling.inj h
        exact ⟨hnodup, fun f hf => hheard.hooks ((hmem f).mp hf)⟩
      listing := fun now' h => nomatch h
      calling := fun now' fns' h => by
        obtain ⟨rfl, -⟩ := LoopPoint.calling.inj h
        exact hheard.listing now hloop
      pending := fun h hp => hheard.pending h ((hpending h).mpr ((hmem h).mp hp))
      current := fun h hh hp => absurd ((hmem h).mpr hh) hp }

/-- It calls one. -/
theorem Heard.calls (hheard : w.Heard) {now : Bool} {f : ℕ} {fns : List ℕ}
    (hloop : w.loop = .calling now (f :: fns)) :
    Heard { w with
      seen := Function.update w.seen f (now :: w.seen f), loop := .calling now fns } := by
  have hnow := hheard.calling now _ hloop
  obtain ⟨hnodup, hknown⟩ := hheard.fns now _ hloop
  have hpending : ∀ h, w.Pending h ↔ h ∈ f :: fns := fun h => by rw [Pending, hloop]
  have hfirst : ∀ v ∈ (w.seen f).head?, v ≠ w.told :=
    hheard.pending f ((hpending f).mpr List.mem_cons_self)
  exact
    { hooks := hheard.hooks
      fns := fun now' fns' h => by
        obtain ⟨-, rfl⟩ := LoopPoint.calling.inj h
        exact ⟨hnodup.of_cons, fun h hh => hknown h (List.mem_cons_of_mem f hh)⟩
      listing := fun now' h => nomatch h
      calling := fun now' fns' h => by
        obtain ⟨rfl, -⟩ := LoopPoint.calling.inj h
        exact hnow
      unknown := fun h hh => by
        have hne : h ≠ f := fun heq => hh (heq ▸ hknown f List.mem_cons_self)
        exact (Function.update_of_ne hne ..).trans (hheard.unknown h hh)
      alternates := fun h => by
        show List.IsChain _ (Function.update w.seen f (now :: w.seen f) h)
        by_cases heq : h = f
        · rw [heq, Function.update_self]
          refine List.isChain_cons.mpr ⟨fun v hv => ?_, hheard.alternates f⟩
          rw [hnow]
          exact (hfirst v hv).symm
        · rw [Function.update_of_ne heq]
          exact hheard.alternates h
      pending := fun h hp => by
        have hne : h ≠ f := fun heq => (List.nodup_cons.mp hnodup).1 (heq ▸ hp)
        show ∀ v ∈ (Function.update w.seen f (now :: w.seen f) h).head?, v ≠ w.told
        rw [Function.update_of_ne hne]
        exact hheard.pending h ((hpending h).mpr (List.mem_cons_of_mem f hp))
      current := fun h hh hp => by
        show ∀ v ∈ (Function.update w.seen f (now :: w.seen f) h).head?, v = w.told
        by_cases heq : h = f
        · rw [heq, Function.update_self]
          intro v hv
          rw [← Option.some.inj hv, hnow]
        · rw [Function.update_of_ne heq]
          refine hheard.current h hh fun hp' => hp ?_
          exact ((List.mem_cons.mp ((hpending h).mp hp')).resolve_left heq) }

theorem Heard.turn (hheard : w.Heard) (hturn : w.LoopTurn w') : w'.Heard := by
  cases hturn with
  | kicked hloop => exact hheard.of_silent (by rw [hloop]; rfl) rfl rfl rfl rfl rfl
  | unflagged hloop =>
      refine hheard.of_silent (by rw [hloop]; rfl) ?_ rfl rfl rfl rfl
      exact LoopPoint.silent_ite rfl rfl
  | read hloop => exact hheard.of_silent (by rw [hloop]; rfl) rfl rfl rfl rfl rfl
  | asked g hloop => exact hheard.of_silent (by rw [hloop]; rfl) rfl rfl rfl rfl rfl
  | failed g hloop => exact hheard.of_silent (by rw [hloop]; rfl) rfl rfl rfl rfl rfl
  | compared g n hloop =>
      refine hheard.of_silent (by rw [hloop]; rfl) ?_ rfl rfl rfl rfl
      exact LoopPoint.silent_ite rfl rfl
  | stored n hloop => exact hheard.of_silent (by rw [hloop]; rfl) rfl rfl rfl rfl rfl
  | agrees hloop heq => exact hheard.of_silent (by rw [hloop]; rfl) rfl rfl rfl rfl rfl
  | tells hloop hne => exact hheard.tells hloop hne
  | lists now fns hloop hnodup hfns => exact hheard.lists hloop hnodup hfns
  | calls now f fns hloop => exact hheard.calls hloop
  | returns now hloop =>
      have hpending : ∀ h, ¬w.Pending h := fun h hp => by
        rw [Pending, hloop] at hp
        cases hp
      exact
        { hheard with
          fns := fun now' fns' h => nomatch h
          listing := fun now' h => nomatch h
          calling := fun now' fns' h => nomatch h
          pending := fun h hp => nomatch hp
          current := fun h hh _ => hheard.current h hh (hpending h) }
  | ends hloop => exact hheard.of_silent (by rw [hloop]; rfl) rfl rfl rfl rfl rfl

theorem pending_registers {f h : ℕ} (hne : h ≠ f) :
    PauseWorld.Pending { w with hooks := insert f w.hooks, known := insert f w.known } h ↔
      w.Pending h := by
  show (match w.loop with
    | .listing _ => h ∈ insert f w.hooks
    | .calling _ fns => h ∈ fns
    | _ => False) ↔ w.Pending h
  unfold Pending
  cases w.loop <;> simp [hne]

theorem pending_cancels {f h : ℕ} (hp : PauseWorld.Pending { w with hooks := w.hooks.erase f } h) :
    w.Pending h := by
  unfold Pending at hp ⊢
  cases hloop : w.loop with
  | listing now =>
      simp only [hloop] at hp
      exact Finset.mem_of_mem_erase hp
  | calling now fns => simpa only [hloop] using hp
  | _ => simp only [hloop] at hp

theorem pending_of_cancels {f h : ℕ} (hh : h ∈ w.hooks.erase f) (hp : w.Pending h) :
    PauseWorld.Pending { w with hooks := w.hooks.erase f } h := by
  unfold Pending at hp ⊢
  cases hloop : w.loop with
  | listing now => simpa only [hloop] using hh
  | calling now fns => simpa only [hloop] using hp
  | _ => simp only [hloop] at hp

/-- A hook that is new has heard nothing. -/
theorem Heard.registers (hheard : w.Heard) {f : ℕ} (hnew : f ∉ w.known) :
    Heard { w with hooks := insert f w.hooks, known := insert f w.known } := by
  have hseen := hheard.unknown f hnew
  have hold := fun h (hne : h ≠ f) => pending_registers (w := w) hne
  exact
    { hooks := Finset.insert_subset_insert f hheard.hooks
      fns := fun now fns h => ⟨(hheard.fns now fns h).1, fun h' hh' =>
        Finset.mem_insert_of_mem ((hheard.fns now fns h).2 h' hh')⟩
      listing := hheard.listing
      calling := hheard.calling
      unknown := fun h hh => hheard.unknown h fun hh' => hh (Finset.mem_insert_of_mem hh')
      alternates := hheard.alternates
      pending := fun h hp => by
        by_cases heq : h = f
        · intro v hv
          rw [heq, show PauseWorld.seen _ f = [] from hseen] at hv
          cases hv
        · exact hheard.pending h ((hold h heq).mp hp)
      current := fun h hh hp => by
        by_cases heq : h = f
        · intro v hv
          rw [heq, show PauseWorld.seen _ f = [] from hseen] at hv
          cases hv
        · exact hheard.current h (Finset.mem_of_mem_insert_of_ne hh heq) fun hp' =>
            hp ((hold h heq).mpr hp') }

/-- A cancelled hook hears at most what was being told. -/
theorem Heard.cancels (hheard : w.Heard) (f : ℕ) :
    Heard { w with hooks := w.hooks.erase f } where
  hooks := (Finset.erase_subset f w.hooks).trans hheard.hooks
  fns := hheard.fns
  listing := hheard.listing
  calling := hheard.calling
  unknown := hheard.unknown
  alternates := hheard.alternates
  pending h hp := hheard.pending h (pending_cancels hp)
  current h hh hp :=
    hheard.current h (Finset.mem_of_mem_erase hh) fun hp' => hp (pending_of_cancels hh hp')

theorem Heard.step (hheard : w.Heard) (hchange : w.Change ev w') : w'.Heard := by
  cases hchange with
  | advances c call hev hcall => exact hheard.advance call _
  | turns w' hturn => exact hheard.turn hturn
  | registers f hev hnew => exact hheard.registers hnew
  | cancels f hev => exact hheard.cancels f
  | _ => exact hheard.of_same rfl rfl rfl rfl rfl

/-! ### The first value -/

/-- What a hook hears that was registered before the pause first changed. -/
structure First (w : PauseWorld) (h : ℕ) : Prop where
  fresh : w.seen h = [] → h ∈ w.hooks → ¬w.Pending h → w.told = false
  pending : w.seen h = [] → w.Pending h → w.told = true
  first : ∀ v ∈ (w.seen h).getLast?, v = true

/-- The pause has not changed yet, and nothing was told. -/
structure Unchanged (w : PauseWorld) : Prop where
  told : w.told = false
  silent : w.loop.silent = true

theorem Unchanged.of_same (h : w.Unchanged) (htold : w'.told = w.told)
    (hsilent : w.loop.silent = true → w'.loop.silent = true) : w'.Unchanged :=
  ⟨htold.trans h.told, hsilent h.silent⟩

theorem Unchanged.step (h : w.Unchanged) (hpaused : w.paused = false)
    (hchange : w.Change ev w') : w'.Unchanged := by
  have hsilent : ∀ {l}, w.loop = l → l.silent = false → False := fun hloop hl => by
    rw [← hloop, h.silent] at hl
    cases hl
  cases hchange with
  | advances c call hev hcall =>
      cases call with
      | starting =>
          refine h.of_same rfl fun _ => ?_
          show (if w.loop = .off then LoopPoint.waiting else w.loop).silent = true
          split
          · rfl
          · exact h.silent
      | _ => exact h.of_same rfl id
  | turns w' hturn =>
      cases hturn with
      | unflagged hloop =>
          refine h.of_same rfl fun _ => ?_
          exact LoopPoint.silent_ite rfl rfl
      | compared g n hloop =>
          refine h.of_same rfl fun _ => ?_
          exact LoopPoint.silent_ite rfl rfl
      | tells hloop hne => exact absurd (hpaused.trans h.told.symm) hne
      | lists now fns hloop => exact (hsilent hloop rfl).elim
      | calls now f fns hloop => exact (hsilent hloop rfl).elim
      | _ => exact h.of_same rfl fun _ => rfl
  | _ => exact h.of_same rfl id

theorem First.of_same {h : ℕ} (hfirst : w.First h) (hseen : w'.seen h = w.seen h)
    (htold : w'.told = w.told) (hhooks : h ∈ w'.hooks → h ∈ w.hooks)
    (hpending : w'.Pending h → w.Pending h)
    (hpending' : h ∈ w'.hooks → w.Pending h → w'.Pending h) : w'.First h where
  fresh hnil hh hp := by
    rw [htold]
    exact hfirst.fresh (hseen ▸ hnil) (hhooks hh) fun hp' => hp (hpending' hh hp')
  pending hnil hp := by
    rw [htold]
    exact hfirst.pending (hseen ▸ hnil) (hpending hp)
  first v hv := hfirst.first v (hseen ▸ hv)

theorem First.of_silent {h : ℕ} (hfirst : w.First h) (hsilent : w.loop.silent = true)
    (hsilent' : w'.loop.silent = true) (hseen : w'.seen h = w.seen h)
    (htold : w'.told = w.told) (hhooks : w'.hooks = w.hooks) : w'.First h :=
  hfirst.of_same hseen htold (fun hh => hhooks ▸ hh)
    (fun hp => absurd hp (not_pending hsilent')) fun _ hp => absurd hp (not_pending hsilent)

theorem First.turn {h : ℕ} (hfirst : w.First h) (hheard : w.Heard) (hturn : w.LoopTurn w') :
    w'.First h := by
  cases hturn with
  | unflagged hloop =>
      refine hfirst.of_silent (by rw [hloop]; rfl) ?_ rfl rfl rfl
      exact LoopPoint.silent_ite rfl rfl
  | compared g n hloop =>
      refine hfirst.of_silent (by rw [hloop]; rfl) ?_ rfl rfl rfl
      exact LoopPoint.silent_ite rfl rfl
  | tells hloop hne =>
      have hquiet : ¬w.Pending h := not_pending (by rw [hloop]; rfl)
      refine ⟨fun _ hh hp => absurd hh hp, fun hnil hh => ?_, hfirst.first⟩
      have hfalse := hfirst.fresh hnil hh hquiet
      rw [hfalse] at hne
      exact Bool.not_eq_false _ ▸ hne
  | lists now fns hloop hnodup hfns =>
      have hmem : h ∈ fns ↔ h ∈ w.hooks := by rw [← hfns, List.mem_toFinset]
      have hpending : w.Pending h ↔ h ∈ w.hooks := by rw [Pending, hloop]
      exact hfirst.of_same rfl rfl id (fun hp => hpending.mpr (hmem.mp hp)) fun hh _ => hmem.mpr hh
  | calls now f fns hloop =>
      have hpending : w.Pending h ↔ h ∈ f :: fns := by rw [Pending, hloop]
      by_cases heq : h = f
      · have hseen : Function.update w.seen f (now :: w.seen f) h = now :: w.seen h := by
          rw [heq, Function.update_self]
        refine ⟨fun hnil => ?_, fun hnil => ?_, fun v hv => ?_⟩
        · exact absurd (hseen.symm.trans hnil) (List.cons_ne_nil _ _)
        · exact absurd (hseen.symm.trans hnil) (List.cons_ne_nil _ _)
        · rw [show PauseWorld.seen _ h = _ from hseen] at hv
          cases hbefore : w.seen h with
          | nil =>
              have htold := hfirst.pending hbefore (hpending.mpr (heq ▸ List.mem_cons_self))
              rw [hbefore] at hv
              have hnow : now = v := Option.some.inj hv
              rw [← hnow, hheard.calling now _ hloop, htold]
          | cons x rest =>
              rw [hbefore, List.getLast?_cons_cons, ← hbefore] at hv
              exact hfirst.first v hv
      · exact hfirst.of_same (Function.update_of_ne heq ..) rfl id
          (fun hp => hpending.mpr (List.mem_cons_of_mem f hp)) fun _ hp =>
            (List.mem_cons.mp (hpending.mp hp)).resolve_left heq
  | returns now hloop =>
      refine hfirst.of_same rfl rfl id (fun hp => nomatch hp) fun _ hp => ?_
      rw [Pending, hloop] at hp
      cases hp
  | kicked hloop => exact hfirst.of_silent (by rw [hloop]; rfl) rfl rfl rfl rfl
  | read hloop => exact hfirst.of_silent (by rw [hloop]; rfl) rfl rfl rfl rfl
  | asked g hloop => exact hfirst.of_silent (by rw [hloop]; rfl) rfl rfl rfl rfl
  | failed g hloop => exact hfirst.of_silent (by rw [hloop]; rfl) rfl rfl rfl rfl
  | stored n hloop => exact hfirst.of_silent (by rw [hloop]; rfl) rfl rfl rfl rfl
  | agrees hloop heq => exact hfirst.of_silent (by rw [hloop]; rfl) rfl rfl rfl rfl
  | ends hloop => exact hfirst.of_silent (by rw [hloop]; rfl) rfl rfl rfl rfl

theorem First.step {h : ℕ} (hfirst : w.First h) (hheard : w.Heard) (hknown : h ∈ w.known)
    (hchange : w.Change ev w') : w'.First h ∧ h ∈ w'.known := by
  cases hchange with
  | advances c call hev hcall =>
      cases call with
      | starting =>
          refine ⟨?_, hknown⟩
          by_cases hoff : w.loop = .off
          · refine hfirst.of_silent (by rw [hoff]; rfl) ?_ rfl rfl rfl
            show (if w.loop = .off then LoopPoint.waiting else w.loop).silent = true
            rw [if_pos hoff]
            rfl
          · have hloop : (if w.loop = .off then LoopPoint.waiting else w.loop) = w.loop :=
              if_neg hoff
            refine hfirst.of_same rfl rfl id (fun hp => ?_) fun _ hp => ?_
            · simp only [PauseWorld.advance, Pending, hloop] at hp
              exact hp
            · simp only [PauseWorld.advance, Pending, hloop]
              exact hp
      | _ => exact ⟨hfirst.of_same rfl rfl id id fun _ => id, hknown⟩
  | turns w' hturn =>
      have hturned := hfirst.turn hheard hturn
      cases hturn <;> exact ⟨hturned, hknown⟩
  | registers f hev hnew =>
      have hne : h ≠ f := fun heq => hnew (heq ▸ hknown)
      refine ⟨hfirst.of_same rfl rfl (fun hh => Finset.mem_of_mem_insert_of_ne hh hne)
        (pending_registers hne).mp fun _ => (pending_registers hne).mpr,
        Finset.mem_insert_of_mem hknown⟩
  | cancels f hev =>
      exact ⟨hfirst.of_same rfl rfl Finset.mem_of_mem_erase pending_cancels pending_of_cancels,
        hknown⟩
  | _ => exact ⟨hfirst.of_same rfl rfl id id fun _ => id, hknown⟩

end Heard

/-! ## After the last change -/

/-- A call that cannot bring the pause out of line with the key `k`, when
`gen` stands at `g`. -/
def Harmless (g : ℕ) (k : Bool) : PauseCall → Prop
  | .looking _ => True
  | .asking _ g' => g' = g
  | .observing g' p => g' = g ∧ p = k
  | .swapping p => p = k
  | .starting => True
  | .kicking => True
  | _ => False

/-- No call under way was read before the last change. -/
structure Settled (g : ℕ) (k : Bool) (w : PauseWorld) : Prop where
  gen : w.gen = g
  key : w.key = k
  calls : ∀ c, ∀ call ∈ w.calls c, Harmless g k call

/-- The loop has the reply `n` of its EXISTS, and is to store it. -/
def Holds (w : PauseWorld) (n : Bool) : Prop :=
  w.loop = .comparing w.gen n ∨ w.loop = .storing n

section Settled

variable {w w' : PauseWorld} {ev : PauseEvent} {g : ℕ} {k : Bool}

/-- The next operation of a harmless call leaves `gen`, and the call harmless. -/
theorem Harmless.advance {call : PauseCall} (hcall : Harmless g k call) (hgen : w.gen = g)
    (hkey : w.key = k) :
    (w.advance call).1.gen = g ∧ (w.advance call).1.key = k ∧
      ∀ call' ∈ (w.advance call).2, Harmless g k call' := by
  cases call with
  | announcing p => exact hcall.elim
  | noting => exact hcall.elim
  | flagging => exact hcall.elim
  | looking sweep =>
      refine ⟨hgen, hkey, fun call' hcall' => ?_⟩
      rw [← Option.some.inj hcall']
      exact hgen
  | asking sweep g' =>
      refine ⟨hgen, hkey, fun call' hcall' => ?_⟩
      have hasked : call' = .observing g' w.key := by
        simp only [PauseWorld.advance] at hcall'
        split at hcall'
        · exact (Option.some.inj hcall').symm
        · cases hcall'
      rw [hasked]
      exact ⟨hcall, hkey⟩
  | observing g' p =>
      refine ⟨hgen, hkey, fun call' hcall' => ?_⟩
      have hobserved : call' = .swapping p := by
        simp only [PauseWorld.advance] at hcall'
        split at hcall'
        · exact (Option.some.inj hcall').symm
        · cases hcall'
      rw [hobserved]
      exact hcall.2
  | swapping p =>
      refine ⟨hgen, hkey, fun call' hcall' => ?_⟩
      have hswapped : call' = .starting := by
        simp only [PauseWorld.advance] at hcall'
        split at hcall'
        · exact (Option.some.inj hcall').symm
        · cases hcall'
      rw [hswapped]
      trivial
  | starting =>
      refine ⟨hgen, hkey, fun call' hcall' => ?_⟩
      rw [← Option.some.inj hcall']
      trivial
  | kicking => exact ⟨hgen, hkey, fun call' hcall' => nomatch hcall'⟩

/-- And the calls stay harmless when one of them moves on to a harmless one. -/
theorem Settled.update (h : w.Settled g k) {c : ℕ} {x : Option PauseCall}
    (hx : ∀ call ∈ x, Harmless g k call) :
    ∀ c', ∀ call ∈ Function.update w.calls c x c', Harmless g k call := by
  intro c' call hcall
  by_cases heq : c' = c
  · rw [heq, Function.update_self] at hcall
    exact hx call hcall
  · rw [Function.update_of_ne heq] at hcall
    exact h.calls c' call hcall

theorem advance_loop (call : PauseCall) :
    (w.advance call).1.loop = w.loop ∨ (w.advance call).1.loop = .waiting := by
  cases call with
  | starting =>
      show (if w.loop = .off then LoopPoint.waiting else w.loop) = w.loop ∨ _
      by_cases hoff : w.loop = .off
      · exact Or.inr (if_pos hoff)
      · exact Or.inl (if_neg hoff)
  | _ => exact Or.inl rfl

theorem Settled.turn (h : w.Settled g k) (hturn : w.LoopTurn w') : w'.Settled g k := by
  cases hturn <;> exact ⟨h.gen, h.key, h.calls⟩

theorem Settled.step (h : w.Settled g k) (hcalm : ev.Calm k) (hchange : w.Change ev w') :
    w'.Settled g k := by
  cases hchange with
  | stays => exact h
  | changes key hev => exact { h with key := by rw [hev] at hcalm; exact hcalm }
  | starts c call hev hnew hfirst =>
      rw [hev] at hcalm
      obtain ⟨sweep, rfl⟩ := hcalm
      refine { h with calls := h.update fun call hcall => ?_ }
      rw [← Option.some.inj hcall]
      trivial
  | advances c call hev hcall =>
      obtain ⟨hgen, hkey, hnext⟩ := (h.calls c call hcall).advance h.gen h.key
      exact ⟨hgen, hkey, h.update hnext⟩
  | fails c sweep g' hev hcall =>
      exact { h with calls := h.update fun call hcall => nomatch hcall }
  | turns w' hturn => exact h.turn hturn
  | registers f hev hnew => exact { h with }
  | cancels f hev => exact { h with }

/-- What the loop holds after its turn it held before, or it has just read the
key. -/
theorem holds_of_turn (hturn : w.LoopTurn w') {n : Bool} (hholds : w'.Holds n) :
    w.Holds n ∨ n = w.key := by
  cases hturn with
  | unflagged hloop =>
      obtain hl | hl := hholds
      · have hl : (if w.recheck then LoopPoint.reading else .loading) = .comparing w.gen n := hl
        split at hl <;> cases hl
      · have hl : (if w.recheck then LoopPoint.reading else .loading) = .storing n := hl
        split at hl <;> cases hl
  | asked g' hloop =>
      obtain hl | hl := hholds
      · exact Or.inr (LoopPoint.comparing.inj hl).2.symm
      · cases hl
  | compared g' n' hloop =>
      obtain hl | hl := hholds
      · have hl : (if w.gen = g' then LoopPoint.storing n' else .loading) =
            .comparing w.gen n := hl
        split at hl <;> cases hl
      · have hl : (if w.gen = g' then LoopPoint.storing n' else .loading) = .storing n := hl
        split at hl
        · next hgen =>
            cases hl
            rw [← hgen] at hloop
            exact Or.inl (Or.inl hloop)
        · cases hl
  | _ => obtain hl | hl := hholds <;> cases hl

theorem Settled.holds (h : w.Settled g k) (hcalm : ev.Calm k) (hchange : w.Change ev w')
    {n : Bool} (hholds : w'.Holds n) : w.Holds n ∨ n = k := by
  have hsettled := h.step hcalm hchange
  have hsame : w'.loop = w.loop → w.Holds n := by
    intro hloop
    rw [Holds, hloop, hsettled.gen, ← h.gen] at hholds
    exact hholds
  cases hchange with
  | advances c call hev hcall =>
      obtain hloop | hwaits := w.advance_loop call
      · exact Or.inl (hsame hloop)
      · obtain hl | hl := hholds
        · cases hwaits.symm.trans hl
        · cases hwaits.symm.trans hl
  | turns w' hturn => exact (holds_of_turn hturn hholds).imp_right fun hn => hn.trans h.key
  | _ => exact Or.inl (hsame rfl)

/-- Nothing under way, the loop's reply included, was read before the last
change. -/
structure Fresh (g : ℕ) (k : Bool) (w : PauseWorld) : Prop extends w.Settled g k where
  holds : ∀ n, w.Holds n → n = k

theorem Fresh.step (h : w.Fresh g k) (hcalm : ev.Calm k) (hchange : w.Change ev w') :
    w'.Fresh g k where
  toSettled := h.toSettled.step hcalm hchange
  holds n hholds := by
    obtain hbefore | hn := h.toSettled.holds hcalm hchange hholds
    · exact h.holds n hbefore
    · exact hn

/-- Then the pause, once in line with the key, stays so. -/
theorem Fresh.paused (h : w.Fresh g k) (hpaused : w.paused = k) (hchange : w.Change ev w') :
    w'.paused = k := by
  cases hchange with
  | advances c call hev hcall =>
      cases call with
      | swapping p => exact h.calls c _ hcall
      | _ => exact hpaused
  | turns w' hturn =>
      cases hturn with
      | stored n hloop => exact h.holds n (Or.inr hloop)
      | _ => exact hpaused
  | _ => exact hpaused

/-- A sweep brings it in line: until it did, it is still under way. -/
def Swept (w : PauseWorld) (c : ℕ) (g : ℕ) (k : Bool) : Prop :=
  w.paused = k ∨ w.calls c = some (.looking true) ∨ w.calls c = some (.asking true g) ∨
    w.calls c = some (.observing g k) ∨ w.calls c = some (.swapping k)

theorem Swept.advance (h : w.Settled g k) {c : ℕ} {call : PauseCall} (hcall : w.calls c = some call)
    (hunder : call = .looking true ∨ call = .asking true g ∨ call = .observing g k ∨
      call = .swapping k) :
    Swept { (w.advance call).1 with
      calls := Function.update w.calls c (w.advance call).2 } c g k := by
  have hnext : ∀ x, (w.advance call).2 = x →
      Function.update w.calls c (w.advance call).2 c = x := fun x hx => by
    rw [Function.update_self, hx]
  obtain rfl | rfl | rfl | rfl := hunder
  · refine Or.inr (Or.inr (Or.inl (hnext _ ?_)))
    show some (PauseCall.asking true w.gen) = _
    rw [h.gen]
  · refine Or.inr (Or.inr (Or.inr (Or.inl (hnext _ ?_))))
    show (if true = true ∨ w.key then some (PauseCall.observing g w.key) else none) = _
    rw [if_pos (Or.inl rfl), h.key]
  · refine Or.inr (Or.inr (Or.inr (Or.inr (hnext _ ?_))))
    exact if_pos h.gen
  · exact Or.inl rfl

theorem Swept.step (h : w.Fresh g k) {c : ℕ} (hswept : w.Swept c g k) (hfails : ev ≠ .fail c)
    (hchange : w.Change ev w') : w'.Swept c g k := by
  obtain hpaused | hunder := hswept
  · exact Or.inl (h.paused hpaused hchange)
  · have hsome : ∃ call, w.calls c = some call ∧ (call = .looking true ∨ call = .asking true g ∨
        call = .observing g k ∨ call = .swapping k) := by
      obtain hc | hc | hc | hc := hunder <;> exact ⟨_, hc, by simp⟩
    obtain ⟨call, hcall, hstage⟩ := hsome
    have hsame : w'.calls c = w.calls c → w'.Swept c g k := fun heq => Or.inr (by rwa [heq])
    have hother : ∀ {c' x}, c' ≠ c → w'.calls = Function.update w.calls c' x → w'.Swept c g k :=
      fun hne hcalls => hsame (by rw [hcalls, Function.update_of_ne hne.symm])
    cases hchange with
    | starts c' call' hev hnew hfirst =>
        refine hother (fun heq => ?_) rfl
        rw [heq, hcall] at hnew
        cases hnew
    | advances c' call' hev hcall' =>
        by_cases heq : c' = c
        · rw [heq, hcall] at hcall'
          rw [heq, ← Option.some.inj hcall']
          exact Swept.advance h.toSettled hcall hstage
        · exact hother heq rfl
    | fails c' sweep g' hev hcall' => exact hother (fun heq => hfails (heq ▸ hev)) rfl
    | turns w' hturn => cases hturn <;> exact hsame rfl
    | _ => exact hsame rfl

end Settled

/-! ## Over a run -/

theorem init_attended (key : Bool) : (init key).Attended := fun hne => absurd rfl hne

theorem init_heard (key : Bool) : (init key).Heard where
  hooks := Finset.empty_subset _
  fns _ _ hloop := nomatch hloop
  listing _ hloop := nomatch hloop
  calling _ _ hloop := nomatch hloop
  unknown _ _ := rfl
  alternates _ := List.isChain_nil
  pending _ hp := nomatch hp
  current _ _ _ _ hv := nomatch hv

end PauseWorld

open PauseWorld

section Runs

variable (key : Bool) (e : ℕ → PauseEvent)

theorem pauseAt_attended (n : ℕ) : (pauseAt key e n).Attended :=
  Trajectory.invariant (init_attended key) (fun n h => h.step (pauseAt_succ key e n)) n

theorem pauseAt_heard (n : ℕ) : (pauseAt key e n).Heard :=
  Trajectory.invariant (init_heard key) (fun n h => h.step (pauseAt_succ key e n)) n

/-- A loop that rests has told the pause as it is. -/
theorem rests_told (n : ℕ) (hrests : (pauseAt key e n).Rests) :
    (pauseAt key e n).told = (pauseAt key e n).paused := by
  obtain ⟨hwaiting, hkick, hkicks⟩ := hrests
  by_contra hne
  obtain h | h | h := pauseAt_attended key e n hne
  · rw [hkick] at h
    cases h
  · exact hkicks h
  · rw [hwaiting] at h
    cases h

theorem pauseAt_unchanged (n : ℕ) (hpaused : ∀ i < n, (pauseAt key e i).paused = false) :
    (pauseAt key e n).Unchanged := by
  induction n with
  | zero => exact ⟨rfl, rfl⟩
  | succ n ih =>
      have hbefore := ih fun i hi => hpaused i (Nat.lt_succ_of_lt hi)
      exact hbefore.step (hpaused n (Nat.lt_succ_self n)) (pauseAt_succ key e n)

/-- A hook registered before the pause first changed hears true first. -/
theorem first_heard {m : ℕ} {h : ℕ} (hregister : e m = .register h)
    (hnew : h ∉ (pauseAt key e m).known)
    (hpaused : ∀ i < m, (pauseAt key e i).paused = false) {n : ℕ} (hmn : m < n) :
    ∀ v ∈ ((pauseAt key e n).seen h).getLast?, v = true := by
  have hunchanged := pauseAt_unchanged key e m hpaused
  have hseen := (pauseAt_heard key e m).unknown h hnew
  have hstart : (pauseAt key e (m + 1)).First h ∧ h ∈ (pauseAt key e (m + 1)).known := by
    have hnext : pauseAt key e (m + 1) =
        { pauseAt key e m with
          hooks := insert h (pauseAt key e m).hooks
          known := insert h (pauseAt key e m).known } := by
      show (pauseAt key e m).step (e m) = _
      rw [hregister]
      exact if_neg hnew
    rw [hnext]
    refine ⟨⟨fun _ _ _ => hunchanged.told, fun _ hp => ?_, fun v hv => ?_⟩,
      Finset.mem_insert_self ..⟩
    · exact absurd hp (not_pending hunchanged.silent)
    · rw [show PauseWorld.seen _ h = [] from hseen] at hv
      cases hv
  have hfirst := Trajectory.invariant_from
    (I := fun w : PauseWorld => w.Heard ∧ w.First h ∧ h ∈ w.known)
    ⟨pauseAt_heard key e (m + 1), hstart⟩
    (fun i _ hi => ⟨hi.1.step (pauseAt_succ key e i),
      hi.2.1.step hi.1 hi.2.2 (pauseAt_succ key e i)⟩) n hmn
  exact hfirst.2.1.first

/-- From event `t` on nothing changes the key, which is `k`: every message is
handled or lost, no call is in flight, and all that starts are pops and
sweeps. -/
structure CalmFrom (t : ℕ) (k : Bool) : Prop where
  stands : (pauseAt key e t).key = k
  calls : ∀ c, (pauseAt key e t).calls c = none
  calm : ∀ i, t ≤ i → (e i).Calm k

/-- A sweep, from its start before event `m` to its end before event `n`. -/
structure SweepRuns (c m n : ℕ) : Prop where
  start : e m = .start c (.looking true)
  free : (pauseAt key e m).calls c = none
  replies : ∀ i, m < i → i < n → e i ≠ .fail c
  ended : (pauseAt key e n).calls c = none

/-- From event `n` on the key is `k`, and so are the pause and what a loop
that rests has told. -/
def FollowsFrom (n : ℕ) (k : Bool) : Prop :=
  ∀ n', n ≤ n' → (pauseAt key e n').key = k ∧ (pauseAt key e n').paused = k ∧
    ((pauseAt key e n').Rests → (pauseAt key e n').told = k)

variable {key e}

theorem CalmFrom.settled {t : ℕ} {k : Bool} (h : CalmFrom key e t k) {n : ℕ} (hn : t ≤ n) :
    (pauseAt key e n).Settled (pauseAt key e t).gen k := by
  have hstart : (pauseAt key e t).Settled (pauseAt key e t).gen k :=
    { gen := rfl
      key := h.stands
      calls := fun c call hcall => by
        rw [h.calls c] at hcall
        cases hcall }
  exact Trajectory.invariant_from hstart
    (fun i hi hsettled => hsettled.step (h.calm i hi) (pauseAt_succ key e i)) n hn

theorem CalmFrom.fresh {t m : ℕ} {k : Bool} (h : CalmFrom key e t k) (htm : t ≤ m)
    (hholds : ¬(pauseAt key e m).Holds (!k)) {n : ℕ} (hmn : m ≤ n) :
    (pauseAt key e n).Fresh (pauseAt key e t).gen k := by
  have hstart : (pauseAt key e m).Fresh (pauseAt key e t).gen k := by
    refine ⟨h.settled htm, fun n hn => ?_⟩
    by_contra hne
    rw [← Bool.eq_not_of_ne hne] at hholds
    exact hholds hn
  exact Trajectory.invariant_from hstart
    (fun i hi hfresh => hfresh.step (h.calm i (htm.trans hi)) (pauseAt_succ key e i)) n hmn

/-- One sweep brings the pause in line with the key. -/
theorem CalmFrom.swept {t : ℕ} {k : Bool} (h : CalmFrom key e t k) {c m n : ℕ} (htm : t ≤ m)
    (hmn : m < n) (hsweep : SweepRuns key e c m n) (hholds : ¬(pauseAt key e m).Holds (!k)) :
    (pauseAt key e n).paused = k := by
  have hstart : (pauseAt key e (m + 1)).Swept c (pauseAt key e t).gen k := by
    have hnext : pauseAt key e (m + 1) =
        { pauseAt key e m with
          calls := Function.update (pauseAt key e m).calls c (some (.looking true)) } := by
      show (pauseAt key e m).step (e m) = _
      rw [hsweep.start]
      exact if_pos ⟨hsweep.free, rfl⟩
    rw [hnext]
    exact Or.inr (Or.inl (Function.update_self ..))
  have hrun : ∀ i, m + 1 ≤ i → i ≤ n → (pauseAt key e i).Swept c (pauseAt key e t).gen k := by
    intro i hi
    induction i, hi using Nat.le_induction with
    | base => exact fun _ => hstart
    | succ i hi ih =>
        intro hin
        have hfresh := h.fresh htm hholds (show m ≤ i by omega)
        exact (ih (by omega)).step hfresh (hsweep.replies i hi hin) (pauseAt_succ key e i)
  obtain hpaused | hunder := hrun n hmn le_rfl
  · exact hpaused
  · rw [hsweep.ended] at hunder
    simp at hunder

theorem CalmFrom.stays {t m : ℕ} {k : Bool} (h : CalmFrom key e t k) (htm : t ≤ m)
    (hholds : ¬(pauseAt key e m).Holds (!k)) {n : ℕ} (hmn : m ≤ n)
    (hpaused : (pauseAt key e n).paused = k) {n' : ℕ} (hn' : n ≤ n') :
    (pauseAt key e n').paused = k := by
  have hrun := Trajectory.invariant_from (m := n)
    (I := fun w : PauseWorld => w.Fresh (pauseAt key e t).gen k ∧ w.paused = k)
    ⟨h.fresh htm hholds hmn, hpaused⟩
    (fun i hi hi' => ⟨hi'.1.step (h.calm i (htm.trans (hmn.trans hi))) (pauseAt_succ key e i),
      hi'.1.paused hi'.2 (pauseAt_succ key e i)⟩) n' hn'
  exact hrun.2

variable (key e)

/-- The hooks follow the pause: each hears alternating values, true first if it
was registered before the first change; a loop that rests has told the pause
as it is; and once the key stays `k`, from the end of the next sweep on the
pause is `k`, and what a loop that rests has told, if that sweep does not
start while the loop holds another reply. -/
theorem pause_hooks_follow :
    (∀ n h, List.IsChain (· ≠ ·) ((pauseAt key e n).seen h)) ∧
      (∀ m h, e m = .register h → h ∉ (pauseAt key e m).known →
        (∀ i ≤ m, (pauseAt key e i).paused = false) →
        ∀ n, m < n → ∀ v ∈ ((pauseAt key e n).seen h).getLast?, v = true) ∧
      (∀ n, (pauseAt key e n).Rests → (pauseAt key e n).told = (pauseAt key e n).paused) ∧
      ∀ t k, CalmFrom key e t k → ∀ c m n, t ≤ m → m < n → SweepRuns key e c m n →
        ¬(pauseAt key e m).Holds (!k) → FollowsFrom key e n k := by
  refine ⟨fun n h => (pauseAt_heard key e n).alternates h, fun m h hregister hnew hpaused n hmn =>
    first_heard key e hregister hnew (fun i hi => hpaused i hi.le) hmn, rests_told key e, ?_⟩
  intro t k hcalm c m n htm hmn hsweep hholds n' hn'
  have hswept := hcalm.swept htm hmn hsweep hholds
  have hpaused := hcalm.stays htm hholds hmn.le hswept hn'
  refine ⟨(hcalm.settled (htm.trans (hmn.le.trans hn'))).key, hpaused, fun hrests => ?_⟩
  rw [rests_told key e n' hrests, hpaused]

end Runs

/-- Another process pauses the queue, and a sweep finds out. -/
def sweptPause : ℕ → PauseEvent
  | 0 => .register 7
  | 1 => .change true
  | 2 => .start 0 (.looking true)
  | 3 => .step 0
  | 4 => .step 0
  | 5 => .step 0
  | 6 => .step 0
  | 7 => .step 0
  | 8 => .step 0
  | 12 => .list [7]
  | _ => .loop

theorem sweptPause_calm : CalmFrom false sweptPause 2 true where
  stands := rfl
  calls c := rfl
  calm i hi := by
    unfold sweptPause
    split
    · trivial
    · omega
    · exact ⟨true, rfl⟩
    all_goals trivial

theorem sweptPause_sweep : SweepRuns false sweptPause 0 2 9 where
  start := rfl
  free := rfl
  replies i _ _ hfail := by
    unfold sweptPause at hfail
    split at hfail <;> cases hfail
  ended := rfl

theorem pause_hooks_follow_sweptPause :
    (pauseAt false sweptPause 15).paused = true ∧
      (pauseAt false sweptPause 15).seen 7 = [true] := by
  have hfollows : FollowsFrom false sweptPause 9 true := by
    obtain ⟨_, _, _, hlast⟩ := pause_hooks_follow false sweptPause
    refine hlast 2 true sweptPause_calm 0 2 9 le_rfl (by decide) sweptPause_sweep ?_
    rintro (hl | hl) <;> cases hl
  exact ⟨(hfollows 15 (by decide)).2.1, by decide⟩

/-- Another process pauses the queue, and the loop reads the key.  Then the
queue is resumed, the message is lost, and a sweep ends before the loop stores
what it read. -/
def overtakenReply : ℕ → PauseEvent
  | 0 => .change true
  | 1 => .start 0 .noting
  | 2 => .step 0
  | 3 => .step 0
  | 4 => .step 0
  | 5 => .step 0
  | 10 => .change false
  | 11 => .start 1 (.looking true)
  | 12 => .step 1
  | 13 => .step 1
  | 14 => .step 1
  | 15 => .step 1
  | _ => .loop

theorem overtakenReply_calm : CalmFrom false overtakenReply 11 false where
  stands := rfl
  calls c := by
    by_cases hc : c = 0
    · subst hc
      rfl
    · -- no other call has begun
      change Function.update (Function.update (Function.update (Function.update
        (Function.update (fun _ => none) 0 _) 0 _) 0 _) 0 _) 0 _ c = none
      simp only [Function.update_of_ne hc]
  calm i hi := by
    unfold overtakenReply
    split
    case h_8 => exact ⟨true, rfl⟩
    all_goals trivial

theorem overtakenReply_sweep : SweepRuns false overtakenReply 1 11 16 where
  start := rfl
  free := rfl
  replies i _ _ hfail := by
    unfold overtakenReply at hfail
    split at hfail <;> cases hfail
  ended := rfl

/-- The sweep does not bring the pause in line with the key. -/
theorem overtakenReply_diverges :
    ¬∀ t k, CalmFrom false overtakenReply t k → ∀ c m n, t ≤ m → m < n →
      SweepRuns false overtakenReply c m n → FollowsFrom false overtakenReply n k := by
  intro hfollows
  have hpaused := (hfollows 11 false overtakenReply_calm 1 11 16 le_rfl (by decide)
    overtakenReply_sweep 18 (by decide)).2.1
  cases hpaused

end Redisq.Model
