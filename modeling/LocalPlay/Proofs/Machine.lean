import Mathlib.Data.List.Forall2
import LocalPlay.Endpoint.Run
import LocalPlay.Reassembly.Run

/-! Runs of a machine that answers each step. What every step keeps, and what every answer satisfies, may
depend on the steps before; tables and endpoints are such machines. -/
namespace LocalPlay.Machine
variable {σ ι ο : Type}

def run (step : σ → ι → ο × σ) (s : σ) : List ι → List ο × σ
  | [] => ([], s)
  | x :: rest => ((step s x).1 :: (run step (step s x).2 rest).1, (run step (step s x).2 rest).2)

variable {step : σ → ι → ο × σ}

theorem run_append (s : σ) (xs ys : List ι) :
    run step s (xs ++ ys) =
      ((run step s xs).1 ++ (run step (run step s xs).2 ys).1, (run step (run step s xs).2 ys).2) := by
  induction xs generalizing s with
  | nil => rfl
  | cons x rest ih => simp only [List.cons_append, run, ih]

theorem run_concat (s : σ) (xs : List ι) (x : ι) : (run step s (xs ++ [x])).2 = (step (run step s xs).2 x).2 := by
  rw [run_append]
  rfl

theorem run_map {κ : Type} (f : κ → ι) (s : σ) (ys : List κ) :
    run (fun s y => step s (f y)) s ys = run step s (ys.map f) := by
  induction ys generalizing s with
  | nil => rfl
  | cons y rest ih => simp only [List.map_cons, run, ih]

/-- An invariant of the state and of the steps done so far. -/
theorem run_history (Inv : List ι → σ → Prop) (Good : ι → ο → Prop) {xs : List ι}
    (hstep : ∀ x ∈ xs, ∀ past s, Inv past s → Good x (step s x).1 ∧ Inv (past ++ [x]) (step s x).2)
    (past : List ι) {s : σ} (h : Inv past s) :
    List.Forall₂ Good xs (run step s xs).1 ∧ Inv (past ++ xs) (run step s xs).2 := by
  induction xs generalizing past s with
  | nil => exact ⟨.nil, by simpa [run] using h⟩
  | cons x rest ih =>
    obtain ⟨hx, hn⟩ := hstep x List.mem_cons_self past s h
    obtain ⟨hr, hl⟩ := ih (fun y hy => hstep y (List.mem_cons_of_mem x hy)) (past ++ [x]) hn
    exact ⟨.cons hx hr, by simpa [run] using hl⟩

theorem run_invariant (Inv : σ → Prop) (Good : ι → ο → Prop) {xs : List ι}
    (hstep : ∀ x ∈ xs, ∀ s, Inv s → Good x (step s x).1 ∧ Inv (step s x).2) {s : σ} (h : Inv s) :
    List.Forall₂ Good xs (run step s xs).1 ∧ Inv (run step s xs).2 :=
  run_history (fun _ => Inv) Good (fun x hx _ => hstep x hx) [] h

/-- What every step keeps that is answered as allowed is kept by a run with such answers. -/
theorem run_of_allowed (Inv : σ → Prop) (Allowed : ι → ο → Prop) {xs : List ι}
    (hstep : ∀ x ∈ xs, ∀ s, Inv s → Allowed x (step s x).1 → Inv (step s x).2) {s : σ} (h : Inv s)
    (ha : List.Forall₂ Allowed xs (run step s xs).1) : Inv (run step s xs).2 := by
  induction xs generalizing s with
  | nil => exact h
  | cons x rest ih =>
    rw [run, List.forall₂_cons] at ha
    have hn := hstep x List.mem_cons_self s h ha.1
    exact ih (fun y hy => hstep y (List.mem_cons_of_mem x hy)) hn ha.2

/-- Two runs, the second without some of the steps: if the steps left out do not break the relation between the
states, and the others keep it and show the same, then the runs show the same in the other steps. -/
theorem run_filter {α : Type} (keep : ι → Bool) (view : ο → α) (Rel : σ → σ → Prop) (Allowed : ι → ο → Prop)
    (hkeep : ∀ x s t, keep x = true → Rel s t → Allowed x (step s x).1 →
      view (step s x).1 = view (step t x).1 ∧ Rel (step s x).2 (step t x).2)
    (hskip : ∀ x s t, keep x = false → Rel s t → Allowed x (step s x).1 → Rel (step s x).2 t) {s t : σ}
    (h : Rel s t) {xs : List ι} (ha : List.Forall₂ Allowed xs (run step s xs).1) :
    ((xs.zip (run step s xs).1).filter (keep ·.1)).map (view ·.2) = (run step t (xs.filter keep)).1.map view ∧
      Rel (run step s xs).2 (run step t (xs.filter keep)).2 := by
  induction xs generalizing s t with
  | nil => exact ⟨rfl, h⟩
  | cons x rest ih =>
    rw [run, List.forall₂_cons] at ha
    cases hx : keep x with
    | true =>
      obtain ⟨hv, hn⟩ := hkeep x s t hx h ha.1
      obtain ⟨hr, hl⟩ := ih hn ha.2
      simp only [run, List.zip_cons_cons, List.filter_cons, hx, if_true, List.map_cons, hv, hr]
      exact ⟨trivial, hl⟩
    | false =>
      obtain ⟨hr, hl⟩ := ih (hskip x s t hx h ha.1) ha.2
      simp only [run, List.zip_cons_cons, List.filter_cons, hx]
      exact ⟨hr, hl⟩

theorem countP_cons_eq {α : Type} (test : α → Bool) (a : α) (rest : List α) :
    (a :: rest).countP test = (test a).toNat + rest.countP test := by
  rw [List.countP_cons, Nat.add_comm]
  cases test a <;> rfl

/-- What a run gives out is covered by what comes in and what was in store, if every step keeps that account. -/
theorem run_account (Inv : σ → Prop) (stock : σ → Nat) (gives : ο → Bool) (brings : ι → Bool) {xs : List ι}
    (hstep : ∀ x ∈ xs, ∀ s, Inv s → Inv (step s x).2 ∧
      (gives (step s x).1).toNat + stock (step s x).2 ≤ stock s + (brings x).toNat) {s : σ} (h : Inv s) :
    (run step s xs).1.countP gives + stock (run step s xs).2 ≤ stock s + xs.countP brings := by
  induction xs generalizing s with
  | nil => simp [run]
  | cons x rest ih =>
    obtain ⟨hn, hx⟩ := hstep x List.mem_cons_self s h
    have hr := ih (fun y hy => hstep y (List.mem_cons_of_mem x hy)) hn
    simp only [run, countP_cons_eq]
    omega

theorem forall_answers {P : ο → Prop} {xs : List ι} {os : List ο} (h : List.Forall₂ (fun _ => P) xs os) :
    ∀ o ∈ os, P o := by
  induction h with
  | nil => simp
  | cons ho _ ih => exact List.forall_mem_cons.mpr ⟨ho, ih⟩

end LocalPlay.Machine

namespace LocalPlay

theorem Reassembly.Table.run_eq (t : Reassembly.Table) (ops : List Reassembly.Op) :
    t.run ops = Machine.run Reassembly.Table.step t ops := by
  induction ops generalizing t with
  | nil => rfl
  | cons op rest ih => simp only [Reassembly.Table.run, Machine.run, ih]

theorem Endpoint.run_eq (e : Endpoint) (ops : List Endpoint.Op) :
    e.run ops = Machine.run Endpoint.step e ops := by
  induction ops generalizing e with
  | nil => rfl
  | cons op rest ih => simp only [Endpoint.run, Machine.run, ih]

end LocalPlay
