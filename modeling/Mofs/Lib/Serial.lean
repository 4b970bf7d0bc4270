import Mathlib.Data.List.FinRange
import Mathlib.Data.List.Nodup
import Mathlib.Logic.Function.Basic

namespace Mofs.Serial

variable {σ ν ρ ι : Type}

/-- A call of a thread. It reads the shared state one access at a time, and then runs one atomic section that ends it, or
returns without one. -/
inductive Call (σ ν ρ : Type)
  | ret (r : ρ)
  | load (get : σ → ν) (k : ν → Call σ ν ρ)
  | lock (crit : σ → Option (ρ × σ))

namespace Call

/-- The whole call, alone. -/
def run : Call σ ν ρ → σ → Option (ρ × σ)
  | .ret r, s => some (r, s)
  | .load get k, s => (k (get s)).run s
  | .lock crit, s => crit s

/-- What is left of a call after its accesses have returned `vs`. -/
def follow : Call σ ν ρ → List ν → Call σ ν ρ
  | .load _ k, v :: vs => (k v).follow vs
  | c, _ => c

/-- In state `s`, the accesses of the call would return `vs`. -/
def Current (s : σ) : Call σ ν ρ → List ν → Prop
  | .load get k, v :: vs => get s = v ∧ (k v).Current s vs
  | _, _ => True

variable {c : Call σ ν ρ} {s : σ} {v : ν} {vs : List ν} {get : σ → ν} {k : ν → Call σ ν ρ}

@[simp] theorem follow_nil (c : Call σ ν ρ) : c.follow [] = c := by cases c <;> rfl

@[simp] theorem current_nil (c : Call σ ν ρ) (s : σ) : c.Current s [] := by cases c <;> trivial

/-- A call whose accesses are current continues as if it had just begun. -/
theorem run_follow (h : c.Current s vs) : (c.follow vs).run s = c.run s := by
  induction vs generalizing c with
  | nil => rw [follow_nil]
  | cons v vs ih =>
    cases c with
    | ret r => rfl
    | lock crit => rfl
    | load get k =>
      obtain ⟨rfl, h⟩ := h
      exact ih h

theorem follow_append (h : c.follow vs = .load get k) (v : ν) : c.follow (vs ++ [v]) = k v := by
  induction vs generalizing c with
  | nil =>
    rw [follow_nil] at h
    subst h
    exact follow_nil (k v)
  | cons u vs ih =>
    cases c with
    | ret r => cases h
    | lock crit => cases h
    | load get' k' => exact ih h

theorem current_append (h : c.follow vs = .load get k) (hc : c.Current s vs) : c.Current s (vs ++ [get s]) := by
  induction vs generalizing c with
  | nil =>
    rw [follow_nil] at h
    subst h
    exact ⟨rfl, current_nil _ _⟩
  | cons u vs ih =>
    cases c with
    | ret r => cases h
    | lock crit => cases h
    | load get' k' => exact ⟨hc.1, ih h hc.2⟩

end Call

/-- The shared state, what each thread has read so far, and the results of the calls that have ended. -/
structure Config (σ ν ρ ι : Type) where
  state : σ
  seen : ι → List ν
  result : ι → Option ρ

def Config.start (calls : ι → Call σ ν ρ) (s : σ) : Config σ ν ρ ι where
  state := s
  seen _ := []
  result i := match calls i with
    | .ret r => some r
    | _ => none

variable {calls : ι → Call σ ν ρ} {K : ι → σ → List ν → Prop}

/-- The calls in `order` run one after the other, each as a whole, from state `s` to `t`, and return `result`. -/
inductive InOrder (calls : ι → Call σ ν ρ) (result : ι → Option ρ) : List ι → σ → σ → Prop
  | nil (s : σ) : InOrder calls result [] s s
  | cons {i : ι} {l : List ι} {s u t : σ} {r : ρ} (hrun : (calls i).run s = some (r, u)) (hr : result i = some r)
      (rest : InOrder calls result l u t) : InOrder calls result (i :: l) s t

/-- Some order of the whole calls gives the same results, and a final state related to the one reached. -/
def Serialisable (calls : ι → Call σ ν ρ) (R : σ → σ → Prop) (s : σ) (c : Config σ ν ρ ι) : Prop :=
  ∃ order t, order.Nodup ∧ (∀ i, i ∈ order) ∧ InOrder calls c.result order s t ∧ R t c.state

namespace InOrder

variable {result result' : ι → Option ρ} {l l' : List ι} {i : ι} {s t u : σ} {r : ρ}

theorem append (h : InOrder calls result l s t) (h' : InOrder calls result l' t u) : InOrder calls result (l ++ l') s u := by
  induction h with
  | nil s => exact h'
  | cons hrun hr _ ih => exact .cons hrun hr (ih h')

theorem congr (h : InOrder calls result l s t) (heq : ∀ i ∈ l, result' i = result i) : InOrder calls result' l s t := by
  induction h with
  | nil s => exact .nil s
  | cons hrun hr _ ih =>
    exact .cons hrun ((heq _ List.mem_cons_self).trans hr) (ih fun j hj => heq j (List.mem_cons_of_mem _ hj))

/-- Only what the calls do as a whole matters. -/
theorem of_run {calls' : ι → Call σ ν ρ} (h : InOrder calls result l s t)
    (heq : ∀ i s, (calls' i).run s = (calls i).run s) : InOrder calls' result l s t := by
  induction h with
  | nil s => exact .nil s
  | cons hrun hr _ ih => exact .cons ((heq _ _).trans hrun) hr ih

end InOrder

theorem Serialisable.of_run {calls' : ι → Call σ ν ρ} {R : σ → σ → Prop} {s : σ} {c : Config σ ν ρ ι}
    (h : Serialisable calls R s c) (heq : ∀ i s, (calls' i).run s = (calls i).run s) : Serialisable calls' R s c := by
  obtain ⟨order, t, hnodup, hall, hin, hR⟩ := h
  exact ⟨order, t, hnodup, hall, hin.of_run heq, hR⟩

/-- Calls that return at once can run at any time. -/
theorem InOrder.idle {result : ι → Option ρ} {l : List ι} (hl : ∀ i ∈ l, ∃ r, calls i = .ret r ∧ result i = some r) (s : σ) :
    InOrder calls result l s s := by
  induction l with
  | nil => exact .nil s
  | cons i l ih =>
    obtain ⟨r, hc, hr⟩ := hl i List.mem_cons_self
    exact .cons (by rw [hc]; rfl) hr (ih fun j hj => hl j (List.mem_cons_of_mem _ hj))

/-- The calls that took a step and have ended, in the order in which they ended, give the state reached. -/
structure Ended (calls : ι → Call σ ν ρ) (s : σ) (c : Config σ ν ρ ι) (l : List ι) : Prop where
  nodup : l.Nodup
  inOrder : InOrder calls c.result l s c.state
  mem : ∀ i, i ∈ l ↔ (c.result i).isSome = true ∧ ∀ r, calls i ≠ .ret r
  idle : ∀ i r, calls i = .ret r → c.result i = some r

variable {s : σ} {c c' : Config σ ν ρ ι} {l : List ι} {i : ι}

theorem Ended.start (calls : ι → Call σ ν ρ) (s : σ) : Ended calls s (.start calls s) [] := by
  refine ⟨List.nodup_nil, .nil s, fun i => ⟨fun h => absurd h List.not_mem_nil, fun ⟨h, hno⟩ => ?_⟩,
    fun i r h => ?_⟩
  · simp only [Config.start] at h
    cases hc : calls i with
    | ret r => exact absurd hc (hno r)
    | load get k => simp at h
    | lock crit => simp at h
  · simp [Config.start, h]

variable [DecidableEq ι]

/-- A step of thread `i`. Whenever a call ends, `K` holds of the state and of what the call has read. -/
inductive Step (calls : ι → Call σ ν ρ) (K : ι → σ → List ν → Prop) (i : ι) : Config σ ν ρ ι → Config σ ν ρ ι → Prop
  | load {c : Config σ ν ρ ι} {get : σ → ν} {k : ν → Call σ ν ρ} (h : (calls i).follow (c.seen i) = .load get k)
      (hk : ∀ r, k (get c.state) ≠ .ret r) :
      Step calls K i c { c with seen := Function.update c.seen i (c.seen i ++ [get c.state]) }
  | leave {c : Config σ ν ρ ι} {get : σ → ν} {k : ν → Call σ ν ρ} {r : ρ} (h : (calls i).follow (c.seen i) = .load get k)
      (hk : k (get c.state) = .ret r) (hK : K i c.state (c.seen i)) :
      Step calls K i c { c with
        seen := Function.update c.seen i (c.seen i ++ [get c.state]), result := Function.update c.result i (some r) }
  | lock {c : Config σ ν ρ ι} {crit : σ → Option (ρ × σ)} {r : ρ} {s : σ} (h : (calls i).follow (c.seen i) = .lock crit)
      (hres : c.result i = none) (hcrit : crit c.state = some (r, s)) (hK : K i c.state (c.seen i)) :
      Step calls K i c { c with state := s, result := Function.update c.result i (some r) }

/-- Any interleaving of steps. -/
inductive Run (calls : ι → Call σ ν ρ) (K : ι → σ → List ν → Prop) (s : σ) : Config σ ν ρ ι → Prop
  | start : Run calls K s (.start calls s)
  | step {c c' : Config σ ν ρ ι} (i : ι) (h : Run calls K s c) (hstep : Step calls K i c c') : Run calls K s c'

/-- One more call at the end. -/
theorem InOrder.extend {result : ι → Option ρ} {l : List ι} {i : ι} {s t u : σ} {r : ρ} (h : InOrder calls result l s t)
    (hi : i ∉ l) (hrun : (calls i).run t = some (r, u)) :
    InOrder calls (Function.update result i (some r)) (l ++ [i]) s u := by
  refine InOrder.append (h.congr fun j hj => Function.update_of_ne (fun he => hi (by rwa [he] at hj)) _ _) ?_
  exact .cons hrun (Function.update_self _ _ _) (.nil u)

theorem Ended.finish (h : Ended calls s c l) {r : ρ} {u : σ} {seen : ι → List ν} (hno : c.result i = none)
    (hrun : (calls i).run c.state = some (r, u)) :
    Ended calls s ⟨u, seen, Function.update c.result i (some r)⟩ (l ++ [i]) := by
  have hi : i ∉ l := fun hm => by
    have := ((h.mem i).mp hm).1
    rw [hno] at this
    cases this
  have hret : ∀ r, calls i ≠ .ret r := fun r hr => by
    have := h.idle i r hr
    rw [hno] at this
    cases this
  refine ⟨?_, h.inOrder.extend hi hrun, fun j => ?_, fun j r' hr => ?_⟩
  · rw [List.nodup_append]
    refine ⟨h.nodup, List.nodup_singleton i, fun a ha b hb hab => hi ?_⟩
    rw [List.mem_singleton.mp hb] at hab
    rwa [← hab]
  · by_cases hj : j = i
    · subst hj
      simp [hret]
    · simp only [List.mem_append, List.mem_singleton, hj, or_false, Function.update_of_ne hj, h.mem j]
  · by_cases hj : j = i
    · subst hj
      exact absurd hr (hret r')
    · simp only [Function.update_of_ne hj]
      exact h.idle j r' hr

/-- A step keeps that, if the accesses of a call are current when it ends. -/
theorem Ended.step (h : Ended calls s c l) (hstep : Step calls (fun i s vs => (calls i).Current s vs) i c c')
    (hopen : ∀ i, c.result i ≠ none → ∀ get k, (calls i).follow (c.seen i) ≠ .load get k) :
    ∃ l', Ended calls s c' l' := by
  cases hstep with
  | load hf hk => exact ⟨l, h.nodup, h.inOrder, h.mem, h.idle⟩
  | leave hf hk hK =>
    refine ⟨l ++ [i], h.finish (not_not.mp fun hno => hopen i hno _ _ hf) ?_⟩
    rw [← Call.run_follow (Call.current_append hf hK), Call.follow_append hf, hk]
    rfl
  | lock hf hres hcrit hK =>
    refine ⟨l ++ [i], h.finish hres ?_⟩
    rw [← Call.run_follow hK, hf]
    exact hcrit

/-- A call that has ended takes no more steps. -/
theorem Run.closed (h : Run calls K s c) (hno : c.result i ≠ none) (get : σ → ν) (k : ν → Call σ ν ρ) :
    (calls i).follow (c.seen i) ≠ .load get k := by
  induction h generalizing get k with
  | start =>
    intro hf
    rw [Config.start, Call.follow_nil] at hf
    simp [Config.start, hf] at hno
  | @step c c' j h hstep ih =>
    cases hstep with
    | @load get' k' hf hk =>
      by_cases hij : i = j
      · subst hij
        exact absurd hf (ih hno get' k')
      · simpa [Function.update_of_ne hij] using ih hno get k
    | leave hf hk hK =>
      by_cases hij : i = j
      · subst hij
        simp only [Function.update_self]
        rw [Call.follow_append hf, hk]
        exact fun he => by cases he
      · simp only [Function.update_of_ne hij] at hno ⊢
        exact ih hno get k
    | lock hf hres hcrit hK =>
      by_cases hij : i = j
      · subst hij
        simp only [hf]
        exact fun he => by cases he
      · simp only [Function.update_of_ne hij] at hno
        exact ih hno get k

theorem Run.ended (h : Run calls (fun i s vs => (calls i).Current s vs) s c) : ∃ l, Ended calls s c l := by
  induction h with
  | start => exact ⟨[], .start calls s⟩
  | step i h hstep ih =>
    obtain ⟨l, hl⟩ := ih
    exact hl.step hstep fun j hno get k => h.closed hno get k

/-- If the accesses of every call are current when it ends, the calls are serialisable in the order in which they end. -/
theorem Run.serialisable {n : Nat} {calls : Fin n → Call σ ν ρ} {c : Config σ ν ρ (Fin n)}
    (h : Run calls (fun i s vs => (calls i).Current s vs) s c) (hdone : ∀ i, (c.result i).isSome = true) :
    Serialisable calls Eq s c := by
  obtain ⟨l, hl⟩ := h.ended
  classical
  let idle := (List.finRange n).filter fun i => ∃ r, calls i = .ret r
  have hidle {i : Fin n} : i ∈ idle ↔ ∃ r, calls i = .ret r := by simp [idle]
  refine ⟨idle ++ l, c.state, ?_, fun i => ?_, InOrder.append (InOrder.idle (fun i hi => ?_) s) hl.inOrder, rfl⟩
  · rw [List.nodup_append]
    refine ⟨(List.nodup_finRange n).filter _, hl.nodup, fun a ha b hb hab => ?_⟩
    obtain ⟨r, hr⟩ := hidle.mp ha
    exact ((hl.mem b).mp hb).2 r (hab ▸ hr)
  · rw [List.mem_append, hidle, hl.mem]
    by_cases hi : ∃ r, calls i = .ret r
    · exact .inl hi
    · exact .inr ⟨hdone i, fun r hr => hi ⟨r, hr⟩⟩
  · obtain ⟨r, hr⟩ := hidle.mp hi
    exact ⟨r, hr, hl.idle i r hr⟩

end Mofs.Serial
