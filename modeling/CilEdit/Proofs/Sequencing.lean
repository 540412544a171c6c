import CilEdit.Code.Instruction
import CilEdit.Method.Clause
import Mathlib.Data.List.Forall2

namespace CilEdit

variable {ε α β : Type}

theorem bind_eq_ok {x : Except ε α} {f : α → Except ε β} {b : β} :
    (x >>= f) = .ok b ↔ ∃ a, x = .ok a ∧ f a = .ok b := by
  cases x with
  | error e => exact ⟨nofun, nofun⟩
  | ok a =>
      refine ⟨fun h => ⟨a, rfl, h⟩, ?_⟩
      rintro ⟨_, h, hf⟩
      cases h
      exact hf

theorem bind_of_ok {x : Except ε α} {f : α → Except ε β} {a : α} (h : x = .ok a) :
    (x >>= f) = f a := by
  rw [h]
  rfl

theorem bind_eq_error {x : Except ε α} {f : α → Except ε β} {e : ε} :
    (x >>= f) = .error e ↔ x = .error e ∨ ∃ a, x = .ok a ∧ f a = .error e := by
  cases x with
  | error e' =>
      refine ⟨fun h => .inl (congrArg Except.error (Except.error.inj h)), ?_⟩
      rintro (h | ⟨_, h, _⟩)
      · cases h
        rfl
      · cases h
  | ok a =>
      refine ⟨fun h => .inr ⟨a, rfl, h⟩, ?_⟩
      rintro (h | ⟨_, h, hf⟩)
      · cases h
      · cases h
        exact hf

theorem exists_of_isOk {x : Except ε α} (h : x.isOk = true) : ∃ a, x = .ok a := by
  cases x with
  | error e => cases h
  | ok a => exact ⟨a, rfl⟩

theorem map_eq_ok {x : Except ε α} {f : α → β} {b : β} :
    x.map f = .ok b ↔ ∃ a, x = .ok a ∧ f a = b := by
  cases x with
  | error e => exact ⟨nofun, nofun⟩
  | ok a =>
      refine ⟨fun h => ⟨a, rfl, Except.ok.inj h⟩, ?_⟩
      rintro ⟨_, h, rfl⟩
      cases h
      rfl

theorem map_eq_error {x : Except ε α} {f : α → β} {e : ε} :
    x.map f = .error e ↔ x = .error e := by
  cases x with
  | error e' => exact ⟨fun h => congrArg Except.error (Except.error.inj h), fun h => by rw [h]; rfl⟩
  | ok a => exact ⟨nofun, nofun⟩

theorem mapM_eq_ok_iff {f : α → Except ε β} {xs : List α} {ys : List β} :
    xs.mapM f = .ok ys ↔ List.Forall₂ (fun x y => f x = .ok y) xs ys := by
  induction xs generalizing ys with
  | nil =>
      rw [List.mapM_nil, List.forall₂_nil_left_iff]
      exact ⟨fun h => by cases h; rfl, fun h => by rw [h]; rfl⟩
  | cons x xs ih =>
      rw [List.mapM_cons, bind_eq_ok, List.forall₂_cons_left_iff]
      constructor
      · rintro ⟨y, hy, hrest⟩
        obtain ⟨rest, hmap, hys⟩ := bind_eq_ok.mp hrest
        cases hys
        exact ⟨y, rest, hy, ih.mp hmap, rfl⟩
      · rintro ⟨y, rest, hy, hmap, rfl⟩
        exact ⟨y, hy, bind_eq_ok.mpr ⟨rest, ih.mpr hmap, rfl⟩⟩

theorem mapM_eq_ok_map {f : α → Except ε β} {g : α → β} {xs : List α}
    (h : ∀ x ∈ xs, f x = .ok (g x)) : xs.mapM f = .ok (xs.map g) := by
  rw [mapM_eq_ok_iff, List.forall₂_map_right_iff, List.forall₂_same]
  exact h

theorem exists_mapM_eq_ok {f : α → Except ε β} {P : β → Prop} {xs : List α}
    (h : ∀ x ∈ xs, ∃ y, f x = .ok y ∧ P y) :
    ∃ ys, xs.mapM f = .ok ys ∧ ys.length = xs.length ∧ ∀ y ∈ ys, P y := by
  induction xs with
  | nil => exact ⟨[], rfl, rfl, nofun⟩
  | cons x xs ih =>
      obtain ⟨⟨y, hy, hPy⟩, hrest⟩ := List.forall_mem_cons.mp h
      obtain ⟨ys, hys, hlength, hall⟩ := ih hrest
      refine ⟨y :: ys, ?_, congrArg Nat.succ hlength, List.forall_mem_cons.mpr ⟨hPy, hall⟩⟩
      rw [List.mapM_cons, bind_of_ok hy, bind_of_ok hys]
      rfl

theorem mapM_map {γ : Type} (f : α → γ) (k : γ → Except ε β) (xs : List α) :
    (xs.map f).mapM k = xs.mapM (k ∘ f) := by
  induction xs with
  | nil => rfl
  | cons x xs ih => rw [List.map_cons, List.mapM_cons, List.mapM_cons, ih, Function.comp_apply]

theorem mapM_congr {f g : α → Except ε β} {xs : List α} (h : ∀ x ∈ xs, f x = g x) :
    xs.mapM f = xs.mapM g := by
  induction xs with
  | nil => rfl
  | cons x xs ih =>
      rw [List.mapM_cons, List.mapM_cons, h x List.mem_cons_self,
        ih fun y hy => h y (List.mem_cons_of_mem x hy)]

theorem mapM_eq_ok_of_mapM {γ : Type} {f : α → Except ε β} {k : β → Except ε γ} {g : α → γ}
    {xs : List α} {ys : List β} (h : xs.mapM f = .ok ys)
    (hk : ∀ x ∈ xs, ∀ y, f x = .ok y → k y = .ok (g x)) : ys.mapM k = .ok (xs.map g) := by
  rw [mapM_eq_ok_iff] at h ⊢
  induction h with
  | nil => exact .nil
  | @cons x y xs ys hxy _ ih =>
      exact .cons (hk x List.mem_cons_self y hxy)
        (ih fun z hz => hk z (List.mem_cons_of_mem x hz))

theorem mapM_eq_ok_comp {γ : Type} {f : α → Except ε β} {k : α → Except ε γ} {g : β → γ}
    (hk : ∀ x y, f x = .ok y → k x = .ok (g y)) {xs : List α} {ys : List β}
    (h : xs.mapM f = .ok ys) : xs.mapM k = .ok (ys.map g) := by
  rw [mapM_eq_ok_iff] at h ⊢
  rw [List.forall₂_map_right_iff]
  exact h.imp hk

theorem exists_of_mapM_eq_error {f : α → Except ε β} {xs : List α} {e : ε}
    (h : xs.mapM f = .error e) : ∃ x ∈ xs, f x = .error e := by
  induction xs with
  | nil => cases h
  | cons x xs ih =>
      rw [List.mapM_cons, bind_eq_error] at h
      rcases h with h | ⟨y, -, h⟩
      · exact ⟨x, List.mem_cons_self, h⟩
      · rw [bind_eq_error] at h
        rcases h with h | ⟨ys, -, h⟩
        · obtain ⟨z, hz, hfz⟩ := ih h
          exact ⟨z, List.mem_cons_of_mem x hz, hfz⟩
        · cases h

theorem ok_of_mapM_eq_ok {f : α → Except ε β} {xs : List α} {ys : List β}
    (h : xs.mapM f = .ok ys) {x : α} (hx : x ∈ xs) : ∃ y ∈ ys, f x = .ok y := by
  rw [mapM_eq_ok_iff] at h
  induction h with
  | nil => cases hx
  | @cons a b xs ys hab _ ih =>
      rcases List.mem_cons.mp hx with rfl | hx
      · exact ⟨b, List.mem_cons_self, hab⟩
      · obtain ⟨y, hy, hfy⟩ := ih hx
        exact ⟨y, List.mem_cons_of_mem b hy, hfy⟩

theorem exists_of_mem_mapM {f : α → Except ε β} {xs : List α} {ys : List β}
    (h : xs.mapM f = .ok ys) {y : β} (hy : y ∈ ys) : ∃ x ∈ xs, f x = .ok y := by
  rw [mapM_eq_ok_iff] at h
  induction h with
  | nil => cases hy
  | @cons a b xs ys hab _ ih =>
      rcases List.mem_cons.mp hy with rfl | hy
      · exact ⟨a, List.mem_cons_self, hab⟩
      · obtain ⟨x, hx, hfx⟩ := ih hy
        exact ⟨x, List.mem_cons_of_mem a hx, hfx⟩

theorem exists_mapM_iff {f : α → Except ε β} {xs : List α} :
    (∃ ys, xs.mapM f = .ok ys) ↔ ∀ x ∈ xs, ∃ y, f x = .ok y := by
  constructor
  · rintro ⟨ys, hys⟩ x hx
    obtain ⟨y, -, hy⟩ := ok_of_mapM_eq_ok hys hx
    exact ⟨y, hy⟩
  · intro hall
    obtain ⟨ys, hys, -⟩ := exists_mapM_eq_ok (P := fun _ => True) fun x hx =>
      (hall x hx).imp fun _ hy => ⟨hy, trivial⟩
    exact ⟨ys, hys⟩

theorem forall₂_getElem? {R : α → β → Prop} {xs : List α} {ys : List β} (h : List.Forall₂ R xs ys)
    {n : Nat} {x : α} {y : β} (hx : xs[n]? = some x) (hy : ys[n]? = some y) : R x y := by
  obtain ⟨hxn, rfl⟩ := List.getElem?_eq_some_iff.mp hx
  obtain ⟨hyn, rfl⟩ := List.getElem?_eq_some_iff.mp hy
  exact (List.forall₂_iff_get.mp h).2 n hxn hyn

theorem exists_getElem?_of_forall₂ {R : α → β → Prop} {xs : List α} {ys : List β}
    (h : List.Forall₂ R xs ys) {n : Nat} {x : α} (hx : xs[n]? = some x) :
    ∃ y, ys[n]? = some y ∧ R x y := by
  have hn : n < ys.length := by
    rw [← h.length_eq]
    exact (List.getElem?_eq_some_iff.mp hx).1
  have hy := List.getElem?_eq_getElem hn
  exact ⟨ys[n], hy, forall₂_getElem? h hx hy⟩

theorem exists_mem_of_forall₂ {R : α → β → Prop} {xs : List α} {ys : List β}
    (h : List.Forall₂ R xs ys) {x : α} (hx : x ∈ xs) : ∃ y ∈ ys, R x y := by
  obtain ⟨n, hn⟩ := List.mem_iff_getElem?.mp hx
  obtain ⟨y, hy, hxy⟩ := exists_getElem?_of_forall₂ h hn
  exact ⟨y, List.mem_of_getElem? hy, hxy⟩

theorem map_eq_of_forall₂ {γ : Type} {f : α → γ} {g : β → γ} {xs : List α} {ys : List β}
    (h : List.Forall₂ (fun x y => g y = f x) xs ys) : ys.map g = xs.map f := by
  induction h with
  | nil => rfl
  | cons hxy _ ih => rw [List.map_cons, List.map_cons, hxy, ih]

theorem forall₂_imp_mem {R S : α → β → Prop} {xs : List α} {ys : List β} (h : List.Forall₂ R xs ys)
    (himp : ∀ x ∈ xs, ∀ y ∈ ys, R x y → S x y) : List.Forall₂ S xs ys := by
  obtain ⟨hlength, hall⟩ := List.forall₂_iff_zip.mp h
  refine List.forall₂_iff_zip.mpr ⟨hlength, fun hp => ?_⟩
  obtain ⟨hx, hy⟩ := List.of_mem_zip hp
  exact himp _ hx _ hy (hall hp)

theorem forall₂_trans {R : α → α → Prop} (htrans : ∀ x y z, R x y → R y z → R x z)
    {xs ys zs : List α} (hxy : List.Forall₂ R xs ys) (hyz : List.Forall₂ R ys zs) :
    List.Forall₂ R xs zs := by
  induction hxy generalizing zs with
  | nil => exact hyz
  | cons hxy _ ih =>
      cases hyz with
      | cons hyz hrest => exact .cons (htrans _ _ _ hxy hyz) (ih hrest)

theorem forall₂_comp {γ : Type} {R : α → β → Prop} {S : γ → β → Prop} {xs : List α} {ys : List β}
    {zs : List γ} (h : List.Forall₂ R xs ys) (h' : List.Forall₂ S zs ys) :
    List.Forall₂ (fun x z => ∃ y, R x y ∧ S z y) xs zs := by
  induction h generalizing zs with
  | nil =>
      cases h'
      exact .nil
  | @cons x y xs ys hxy _ ih =>
      cases h' with
      | cons hzy hrest => exact .cons ⟨y, hxy, hzy⟩ (ih hrest)

variable {τ σ : Type}

namespace Operand

def map (f : τ → σ) : Operand τ → Operand σ
  | .none => .none
  | .immediate v => .immediate v
  | .token t => .token t
  | .target t => .target (f t)
  | .switch ts => .switch (ts.map f)

@[simp]
theorem map_id (operand : Operand τ) : operand.map (fun t => t) = operand := by
  cases operand <;> simp [map]

theorem traverse_eq_ok {f : τ → Except Error σ} {g : τ → σ} {operand : Operand τ}
    (h : ∀ t ∈ operand.targets, f t = .ok (g t)) :
    operand.traverse f = .ok (operand.map g) := by
  cases operand with
  | none | immediate v | token t => rfl
  | target t =>
      rw [traverse, h t (List.mem_singleton_self t)]
      rfl
  | switch ts =>
      have hts : ts.mapM f = .ok (ts.map g) := mapM_eq_ok_map h
      rw [traverse, hts]
      rfl

theorem traverse_map {ρ : Type} (f : τ → ρ) (g : ρ → Except Error σ) (operand : Operand τ) :
    (operand.map f).traverse g = operand.traverse (g ∘ f) := by
  cases operand with
  | none | immediate v | token t | target t => rfl
  | switch ts =>
      have hts : (ts.map f).mapM g = ts.mapM (g ∘ f) := mapM_map f g ts
      rw [map, traverse, traverse, hts]

theorem traverse_eq_ok_comp {ρ : Type} {f : τ → Except Error σ} {k : τ → Except Error ρ}
    {g : σ → ρ} (hk : ∀ t s, f t = .ok s → k t = .ok (g s)) {operand : Operand τ}
    {found : Operand σ} (h : operand.traverse f = .ok found) :
    operand.traverse k = .ok (found.map g) := by
  cases operand with
  | none | immediate v | token t =>
      cases h
      rfl
  | target t =>
      obtain ⟨s, hs, rfl⟩ := map_eq_ok.mp h
      exact map_eq_ok.mpr ⟨g s, hk t s hs, rfl⟩
  | switch ts =>
      obtain ⟨ss, hss, rfl⟩ := map_eq_ok.mp h
      exact map_eq_ok.mpr ⟨ss.map g, mapM_eq_ok_comp hk hss, rfl⟩

/-- A map that takes back what was found for every target gives the operand back. -/
theorem map_of_traverse {f : τ → Except Error σ} {g : σ → τ} (hg : ∀ t s, f t = .ok s → g s = t)
    {operand : Operand τ} {found : Operand σ} (h : operand.traverse f = .ok found) :
    found.map g = operand := by
  have hlast := traverse_eq_ok_comp (k := .ok) (fun t s hs => congrArg _ (hg t s hs).symm) h
  have hsame : operand.traverse .ok = .ok (operand.map fun t => t) := traverse_eq_ok fun _ _ => rfl
  rw [hsame, map_id] at hlast
  exact (Except.ok.inj hlast).symm

theorem exists_of_traverse_eq_ok {f : τ → Except Error σ} {operand : Operand τ}
    {found : Operand σ} (h : operand.traverse f = .ok found) {t : τ} (ht : t ∈ operand.targets) :
    ∃ s, f t = .ok s := by
  cases operand with
  | none | immediate v | token s => cases ht
  | target s =>
      cases List.mem_singleton.mp ht
      obtain ⟨s, hs, -⟩ := map_eq_ok.mp h
      exact ⟨s, hs⟩
  | switch ts =>
      obtain ⟨found, hfound, -⟩ := map_eq_ok.mp h
      obtain ⟨s, -, hs⟩ := ok_of_mapM_eq_ok hfound ht
      exact ⟨s, hs⟩

theorem exists_of_mem_targets {f : τ → Except Error σ} {operand : Operand τ} {found : Operand σ}
    (h : operand.traverse f = .ok found) {t : σ} (ht : t ∈ found.targets) :
    ∃ s ∈ operand.targets, f s = .ok t := by
  cases operand with
  | none | immediate v | token t =>
      cases h
      exact (List.not_mem_nil ht).elim
  | target s =>
      obtain ⟨t', hs, rfl⟩ := map_eq_ok.mp h
      obtain rfl := List.mem_singleton.mp ht
      exact ⟨s, List.mem_singleton_self s, hs⟩
  | switch ts =>
      obtain ⟨found, hts, rfl⟩ := map_eq_ok.mp h
      exact exists_of_mem_mapM hts ht

@[simp]
theorem targets_map (f : τ → σ) (operand : Operand τ) :
    (operand.map f).targets = operand.targets.map f := by
  cases operand <;> rfl

theorem map_map {ρ : Type} (g : σ → ρ) (f : τ → σ) (operand : Operand τ) :
    (operand.map f).map g = operand.map (g ∘ f) := by
  cases operand <;> simp [map]

theorem map_congr {f g : τ → σ} {operand : Operand τ} (h : ∀ t ∈ operand.targets, f t = g t) :
    operand.map f = operand.map g := by
  cases operand with
  | none | immediate v | token t => rfl
  | target t => exact congrArg Operand.target (h t (List.mem_singleton_self t))
  | switch ts => exact congrArg Operand.switch (List.map_congr_left h)

end Operand

namespace Handler

def map (f : τ → σ) (h : Handler τ) : Handler σ where
  flags := h.flags
  tryStart := f h.tryStart
  tryEnd := h.tryEnd.map f
  handlerStart := f h.handlerStart
  handlerEnd := h.handlerEnd.map f
  filterStart := h.filterStart.map f
  classToken := h.classToken

theorem mem_boundaries {h : Handler τ} {t : τ} :
    t ∈ h.boundaries ↔ h.tryStart = t ∨ h.tryEnd = some t ∨ h.handlerStart = t ∨
      h.handlerEnd = some t ∨ h.filterStart = some t := by
  simp only [boundaries, List.mem_filterMap, id_eq, exists_eq_right, List.mem_cons,
    Option.some.injEq, List.not_mem_nil, or_false, eq_comm]

theorem forall_mem_boundaries {h : Handler τ} {P : τ → Prop} :
    (∀ t ∈ h.boundaries, P t) ↔ P h.tryStart ∧ (∀ e, h.tryEnd = some e → P e) ∧
      P h.handlerStart ∧ (∀ e, h.handlerEnd = some e → P e) ∧
      ∀ f, h.filterStart = some f → P f := by
  constructor
  · intro hall
    have hmem := fun t ht => hall t (mem_boundaries.mpr ht)
    exact ⟨hmem _ (.inl rfl), fun e he => hmem e (.inr (.inl he)), hmem _ (.inr (.inr (.inl rfl))),
      fun e he => hmem e (.inr (.inr (.inr (.inl he)))),
      fun f hf => hmem f (.inr (.inr (.inr (.inr hf))))⟩
  · rintro ⟨htryStart, htryEnd, hhandlerStart, hhandlerEnd, hfilterStart⟩ t ht
    rcases mem_boundaries.mp ht with rfl | ht | rfl | ht | ht
    · exact htryStart
    · exact htryEnd t ht
    · exact hhandlerStart
    · exact hhandlerEnd t ht
    · exact hfilterStart t ht

theorem boundaries_map (f : τ → σ) (h : Handler τ) :
    (h.map f).boundaries = h.boundaries.map f := by
  cases h with
  | mk flags tryStart tryEnd handlerStart handlerEnd filterStart classToken =>
      cases tryEnd <;> cases handlerEnd <;> cases filterStart <;> rfl

theorem map_congr {f g : τ → σ} {h : Handler τ} (hall : ∀ t ∈ h.boundaries, f t = g t) :
    h.map f = h.map g := by
  obtain ⟨htryStart, htryEnd, hhandlerStart, hhandlerEnd, hfilterStart⟩ :=
    forall_mem_boundaries.mp hall
  rw [map, map, htryStart, Option.map_congr htryEnd, hhandlerStart, Option.map_congr hhandlerEnd,
    Option.map_congr hfilterStart]

@[simp]
theorem map_id (h : Handler τ) : h.map (fun t => t) = h := by
  simp only [map, Option.map_id']

theorem map_map {ρ : Type} (g : σ → ρ) (f : τ → σ) (h : Handler τ) :
    (h.map f).map g = h.map (g ∘ f) := by
  simp only [map, Option.map_map, Function.comp_apply]

end Handler

end CilEdit
