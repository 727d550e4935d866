import SkyOS.Lib.WriteBack

/-!
# Rules for programs behind the cache

`Does S P p Q`: from a state with `P` the program `p` comes back, with a value and
a state that `Q` holds of, and asks for no sector outside `S`. Between calls the
state is `On` a disk; inside a call the buffer belongs to a sector, is edited for
one, or is spare.
-/

namespace WriteBack

variable {σ ε α β : Type}

namespace Prog

def within (S : Set ℕ) : Prog σ ε α → Cached σ → Prop
  | pure _, _ | fail _, _ => True
  | get n k, c => n ∈ S ∧ k.within S (c.get n)
  | put n k, c => k.within S (c.put n)
  | flush k, c => k.within S c.flush
  | load k, c => (k c.buf).within S c
  | store s k, c => k.within S { c with buf := s }
  | write n k, c => k.within S { c with dev := Function.update c.dev n c.buf }

theorem within_bind {S : Set ℕ} (p : Prog σ ε α) (f : α → Prog σ ε β) (c : Cached σ) :
    (p >>= f).within S c ↔ p.within S c ∧ ∀ a c', p.cached c = .ok (a, c') → (f a).within S c' := by
  induction p generalizing c with
  | pure a => exact ⟨fun h => ⟨trivial, fun b c' hb => by cases hb; exact h⟩, fun h => h.2 a c rfl⟩
  | fail e => exact ⟨fun _ => ⟨trivial, nofun⟩, fun _ => trivial⟩
  | load k ih => exact ih _ _
  | get n k ih => exact (and_congr_right fun _ => ih _).trans and_assoc.symm
  | put n k ih | flush k ih | store s k ih | write n k ih => exact ih _

theorem cached_bind_ok {p : Prog σ ε α} {f : α → Prog σ ε β} {c : Cached σ} :
    (p >>= f).cached c = .ok r ↔ ∃ a c', p.cached c = .ok (a, c') ∧ (f a).cached c' = .ok r := by
  rw [cached_bind]
  match p.cached c with
  | .ok (a, c') => exact ⟨fun h => ⟨a, c', rfl, h⟩, by rintro ⟨_, _, ⟨⟩, h⟩; exact h⟩
  | .error e => exact ⟨nofun, by rintro ⟨_, _, ⟨⟩, -⟩⟩

end Prog

-- ---------------------------------------------------------------------------
-- States
-- ---------------------------------------------------------------------------

structure On (D : ℕ → σ) (c : Cached σ) : Prop where
  disk : c.disk = D
  coherent : c.Coherent

structure At (n : ℕ) (D : ℕ → σ) (c : Cached σ) : Prop extends On D c where
  tag : c.tag = some n

structure Editing (n : ℕ) (D : ℕ → σ) (b : σ) (c : Cached σ) : Prop where
  tag : c.tag = some n
  buf : c.buf = b
  dev : ∀ m ≠ n, c.dev m = D m

structure Spare (D : ℕ → σ) (b : σ) (c : Cached σ) : Prop where
  dirty : c.dirty = false
  buf : c.buf = b
  dev : c.dev = D

/-- As `On`, but the buffer may be anything if it is tagged with a sector of `T`. -/
def Apart (T : Set ℕ) (D : ℕ → σ) (c : Cached σ) : Prop :=
  On D c ∨ c.dirty = false ∧ c.dev = D ∧ ∃ t ∈ T, c.tag = some t

theorem On.apart {c : Cached σ} {D : ℕ → σ} (h : On D c) (T : Set ℕ) : Apart T D c := .inl h

theorem Apart.disk {T : Set ℕ} {c : Cached σ} {D : ℕ → σ} : Apart T D c → c.disk = D
  | .inl h => h.disk
  | .inr h => (Cached.disk_clean h.1).trans h.2.1

theorem On.agree {c : Cached σ} {D : ℕ → σ} (h : On D c) : Agree c ⟨c.buf, D⟩ :=
  ⟨rfl, h.disk, h.coherent⟩

theorem Agree.on {c : Cached σ} {d : Direct σ} (h : Agree c d) : On d.disk c := ⟨h.disk, h.coherent⟩

theorem At.buf {c : Cached σ} {D : ℕ → σ} (h : At n D c) :
    c.buf = D n := by rw [← h.disk, h.coherent.held h.tag]

theorem At.editing {c : Cached σ} {D : ℕ → σ} (h : At n D c) : Editing n D (D n) c :=
  ⟨h.tag, h.buf, fun m hm => by rw [← h.disk, Cached.disk_of_ne h.tag hm]⟩

-- ---------------------------------------------------------------------------
-- Rules
-- ---------------------------------------------------------------------------

def Does (S : Set ℕ) (P : Cached σ → Prop) (p : Prog σ ε α) (Q : α → Cached σ → Prop) : Prop :=
  ∀ c, P c → p.within S c ∧ ∃ a c', p.cached c = .ok (a, c') ∧ Q a c'

def Gives (S : Set ℕ) (P : Cached σ → Prop) (p : Prog σ ε α) (v : α)
    (P' : Cached σ → Prop) : Prop :=
  Does S P p fun a c => a = v ∧ P' c

section
variable {S S' : Set ℕ} {P P' P₁ : Cached σ → Prop} {p : Prog σ ε α} {f : α → Prog σ ε β}
    {Q Q' : α → Cached σ → Prop}
  {R : β → Cached σ → Prop} {v : α} {D : ℕ → σ} {b : σ}

theorem Does.pure (h : ∀ c, P c → Q a c) : Does S P (Pure.pure a : Prog σ ε α) Q := fun c hc =>
  ⟨trivial, a, c, rfl, h c hc⟩

theorem Does.bind (hp : Does S P p Q) (hf : ∀ a, Does S (Q a) (f a) R) : Does S P (p >>= f) R := by
  intro c hc
  obtain ⟨hw, a, c₁, h₁, hq⟩ := hp c hc
  obtain ⟨hw', r, c₂, h₂, hr⟩ := hf a c₁ hq
  refine ⟨(Prog.within_bind _ _ _).mpr ⟨hw, fun a' c' h => ?_⟩, r, c₂, ?_, hr⟩
  · cases h₁.symm.trans h
    exact hw'
  · rw [Prog.cached_bind, h₁]
    exact h₂

theorem Does.mono (h : Does S P p Q) (hP : ∀ c, P' c → P c) (hQ : ∀ a c, Q a c → Q' a c) :
    Does S P' p Q' := by
  intro c hc
  obtain ⟨hw, a, c', hp, hq⟩ := h c (hP c hc)
  exact ⟨hw, a, c', hp, hQ a c' hq⟩

theorem Does.pre (h : Does S P p Q) (hP : ∀ c, P' c → P c) : Does S P' p Q :=
  h.mono hP fun _ _ => id

theorem Does.post (h : Does S P p Q) (hQ : ∀ a c, Q a c → Q' a c) : Does S P p Q' :=
  h.mono (fun _ => id) hQ

theorem Gives.pure (v : α) (h : ∀ c, P c → P' c) : Gives S P (Pure.pure v : Prog σ ε α) v P' :=
  Does.pure fun c hc => ⟨rfl, h c hc⟩

theorem Gives.bind (hp : Gives S P p v P₁) (hf : Does S P₁ (f v) R) : Does S P (p >>= f) R :=
  Does.bind hp fun a c hc => by
    obtain ⟨rfl, hc⟩ := hc
    exact hf c hc

theorem Gives.pre (h : Gives S P p v P₁) (hP : ∀ c, P' c → P c) : Gives S P' p v P₁ := Does.pre h hP

theorem Gives.post (h : Gives S P p v P₁) (hP : ∀ c, P₁ c → P' c) : Gives S P p v P' :=
  Does.post h fun _ c hc => ⟨hc.1, hP c hc.2⟩

theorem Gives.run (h : Gives S P p v P') (hc : P c) : p.within S c ∧
    ∃ c', p.cached c = .ok (v, c') ∧ P' c' := by
  obtain ⟨hw, a, c', hp, rfl, hc'⟩ := h c hc
  exact ⟨hw, c', hp, hc'⟩

/-- The program does not fail with `e`, and where it comes back `Q` holds. -/
def Avoids (e : ε) (P : Cached σ → Prop) (p : Prog σ ε α) (Q : α → Cached σ → Prop) : Prop :=
  ∀ c, P c → p.cached c ≠ .error e ∧ ∀ a c', p.cached c = .ok (a, c') → Q a c'

theorem Does.avoids {e : ε} (h : Does S P p Q) : Avoids e P p Q := by
  intro c hc
  obtain ⟨-, a, c', hrun, hq⟩ := h c hc
  refine ⟨by rw [hrun]; exact nofun, fun b c'' hb => ?_⟩
  cases hrun.symm.trans hb
  exact hq

theorem Avoids.fail {e e' : ε} (h : e' ≠ e) : Avoids e P (.fail e' : Prog σ ε α) Q := fun _ _ =>
  ⟨fun he => h (Except.error.inj he), nofun⟩

theorem Avoids.pure {e : ε} (h : ∀ c, P c → Q a c) : Avoids e P (Pure.pure a : Prog σ ε α) Q :=
  fun c hc =>
  ⟨nofun, by rintro b c' ⟨⟩; exact h c hc⟩

theorem Avoids.bind {e : ε} (hp : Avoids e P p Q) (hf : ∀ a, Avoids e (Q a) (f a) R) :
    Avoids e P (p >>= f) R := by
  intro c hc
  obtain ⟨hne, hq⟩ := hp c hc
  refine ⟨fun herr => ?_, fun r c' hr => ?_⟩
  · rw [Prog.cached_bind] at herr
    match hrun : p.cached c with
    | .ok (a, c') =>
      rw [hrun] at herr
      exact (hf a c' (hq a c' hrun)).1 herr
    | .error e' =>
      rw [hrun] at herr
      exact hne (hrun.trans (congrArg _ (Except.error.inj herr)))
  · obtain ⟨a, c₁, hrun, hrest⟩ := Prog.cached_bind_ok.mp hr
    exact (hf a c₁ (hq a c₁ hrun)).2 r c' hrest

theorem Avoids.pre {e : ε} (h : Avoids e P p Q) (hP : ∀ c, P' c → P c) : Avoids e P' p Q :=
  fun c hc => h c (hP c hc)

def Returns (P : Cached σ → Prop) (p : Prog σ ε α) (Q : α → Cached σ → Prop) : Prop :=
  ∀ c, P c → ∀ a c', p.cached c = .ok (a, c') → Q a c'

theorem Does.returns (h : Does S P p Q) : Returns P p Q := fun c hc a c' hrun => by
  obtain ⟨-, b, c'', hb, hq⟩ := h c hc
  cases hb.symm.trans hrun
  exact hq

theorem Returns.fail {e : ε} : Returns P (.fail e : Prog σ ε α) Q := fun _ _ _ _ => nofun

theorem Returns.pure (h : ∀ c, P c → Q a c) : Returns P (Pure.pure a : Prog σ ε α) Q :=
  fun c hc => by
  rintro b c' ⟨⟩
  exact h c hc

theorem Returns.bind (hp : Returns P p Q) (hf : ∀ a, Returns (Q a) (f a) R) :
    Returns P (p >>= f) R := by
  intro c hc r c' hr
  obtain ⟨a, c₁, hrun, hrest⟩ := Prog.cached_bind_ok.mp hr
  exact hf a c₁ (hp c hc a c₁ hrun) r c' hrest

theorem Returns.post (h : Returns P p Q) (hQ : ∀ a c, Q a c → Q' a c) : Returns P p Q' :=
  fun c hc a c' ha => hQ a c' (h c hc a c' ha)

theorem Returns.pre (h : Returns P p Q) (hP : ∀ c, P' c → P c) : Returns P' p Q :=
  fun c hc => h c (hP c hc)

theorem Returns.given {G : Prop} (h : G → Returns P p Q) : Returns (fun c => P c ∧ G) p Q :=
  fun c hc => h hc.2 c hc.1

/-- The run from `c` ends with `r`, and asks for no sector outside `S`. -/
def Ran (S : Set ℕ) (p : Prog σ ε α) (c : Cached σ) (r : α × Cached σ) : Prop :=
  p.cached c = .ok r ∧ p.within S c

theorem ran_bind {c : Cached σ} : Ran S (p >>= f) c r ↔ ∃ a c', Ran S p c (a, c') ∧
    Ran S (f a) c' r := by
  unfold Ran
  rw [Prog.cached_bind_ok, Prog.within_bind]
  constructor
  · rintro ⟨⟨a, c', hp, hf⟩, hw, hrest⟩
    exact ⟨a, c', ⟨hp, hw⟩, hf, hrest a c' hp⟩
  · rintro ⟨a, c', ⟨hp, hw⟩, hf, hrest⟩
    refine ⟨⟨a, c', hp, hf⟩, hw, fun b c'' hb => ?_⟩
    cases hp.symm.trans hb
    exact hrest

theorem ran_pure {a : α} {c : Cached σ} : Ran S (Pure.pure a : Prog σ ε α) c r ↔ r = (a, c) :=
  ⟨fun h => by cases h.1; rfl, by rintro rfl; exact ⟨rfl, trivial⟩⟩

theorem Does.ran {c : Cached σ} (h : Does S P p Q) (hc : P c) : ∃ a c', Ran S p c (a, c') ∧
    Q a c' := by
  obtain ⟨hw, a, c', hp, hq⟩ := h c hc
  exact ⟨a, c', ⟨hp, hw⟩, hq⟩

theorem Gives.ran_bind {c : Cached σ} (h : Gives S' P p v P') (hc : P c)
    (hrun : Ran S (p >>= f) c r) :
    ∃ c', P' c' ∧ Ran S p c (v, c') ∧ Ran S (f v) c' r := by
  obtain ⟨a, c', hp, hf⟩ := WriteBack.ran_bind.mp hrun
  obtain ⟨-, c'', hv, hc''⟩ := h.run hc
  cases hv.symm.trans hp.1
  exact ⟨c', hc'', hp, hf⟩

-- ---------------------------------------------------------------------------
-- Steps
-- ---------------------------------------------------------------------------

theorem gives_get (h : n ∈ S) : Gives S (On D) (getSector n : Prog σ ε Unit) () (At n D) :=
  fun c hc => by
  obtain ⟨hg, ht⟩ := hc.agree.get n
  exact ⟨⟨h, trivial⟩, (), c.get n, rfl, rfl, hg.on, ht⟩

theorem gives_load (n : ℕ) : Gives S (At n D) (loadBuf : Prog σ ε σ) (D n) (At n D) := fun c hc =>
  ⟨trivial, c.buf, c, rfl, hc.buf, hc⟩

theorem gives_loadEdited : Gives S (Editing n D b) (loadBuf : Prog σ ε σ) b (Editing n D b) :=
  fun c hc =>
  ⟨trivial, c.buf, c, rfl, hc.buf, hc⟩

theorem gives_loadSpare : Gives S (Spare D b) (loadBuf : Prog σ ε σ) b (Spare D b) := fun c hc =>
  ⟨trivial, c.buf, c, rfl, hc.buf, hc⟩

theorem gives_store (b' : σ) :
    Gives S (Editing n D b) (storeBuf b' : Prog σ ε Unit) () (Editing n D b') := fun c hc =>
  ⟨trivial, (), { c with buf := b' }, rfl, rfl, hc.tag, rfl, hc.dev⟩

theorem gives_storeSpare (b' : σ) :
    Gives S (Spare D b) (storeBuf b' : Prog σ ε Unit) () (Spare D b') := fun c hc =>
  ⟨trivial, (), { c with buf := b' }, rfl, rfl, hc.dirty, rfl, hc.dev⟩

theorem Editing.held {c : Cached σ} (h : Editing n D b c) : Held n c ⟨b, D⟩ := ⟨h.tag, h.buf, h.dev⟩

theorem gives_put (n : ℕ) :
    Gives S (Editing n D b) (putSector n : Prog σ ε Unit) () (On (Function.update D n b)) :=
  fun c hc => ⟨trivial, (), c.put n, rfl, rfl, hc.held.put.on⟩

theorem gives_putSpare (n : ℕ) :
    Gives S (Spare D b) (putSector n : Prog σ ε Unit) () (On (Function.update D n b)) :=
  fun c hc =>
    have hl : Loose c ⟨b, D⟩ := ⟨hc.dirty, hc.buf, hc.dev⟩
    ⟨trivial, (), c.put n, rfl, rfl, (hl.put n).on⟩

/-- What follows may use the buffer as it likes, or go on as if nothing was. -/
theorem gives_flush : Gives S (On D) (flushSector : Prog σ ε Unit) () fun c => On D c ∧
    ∃ b, Spare D b c := fun c hc =>
  ⟨trivial, (), c.flush, rfl, rfl, hc.agree.flush.on, c.buf, rfl, rfl, hc.disk⟩

theorem gives_write (n : ℕ) :
    Gives S (Spare D b) (writeSector n : Prog σ ε Unit) () (Spare (Function.update D n b) b) :=
      fun c hc =>
  ⟨trivial, (), { c with dev := Function.update c.dev n c.buf }, rfl, rfl, hc.dirty, hc.buf,
    by rw [hc.dev, hc.buf]⟩

theorem gives_getApart {T : Set ℕ} (h : n ∈ S) (hn : n ∉ T) :
    Gives S (Apart T D) (getSector n : Prog σ ε Unit) () (At n D) := by
  rintro c (hc | ⟨hdirty, hdev, t, ht, htag⟩)
  · exact gives_get h c hc
  · have hne : ¬ c.tag = some n := by
      rw [htag]
      rintro ⟨⟩
      exact hn ht
    have hget : c.get n = { c with tag := some n, dirty := false, buf := D n, dev := D } := by
      unfold Cached.get
      rw [if_neg hne]
      simp only [Cached.flush, Cached.disk_clean hdirty, hdev]
    refine ⟨⟨h, trivial⟩, (), c.get n, rfl, rfl, ?_⟩
    rw [hget]
    exact ⟨⟨Cached.disk_clean rfl, by rintro s ⟨⟩ -; rfl, nofun⟩, rfl⟩

theorem gives_flushApart {T : Set ℕ} : Does S (Apart T D) (flushSector : Prog σ ε Unit) fun _ c =>
    ∃ b, Spare D b c := by
  rintro c (hc | ⟨hdirty, hdev, -⟩)
  · obtain ⟨hw, a, c', hrun, -, -, hb⟩ := gives_flush (S := S) (ε := ε) c hc
    exact ⟨hw, a, c', hrun, hb⟩
  · exact ⟨trivial, (), c.flush, rfl, c.buf, rfl, rfl, (Cached.disk_clean hdirty).trans hdev⟩

-- ---------------------------------------------------------------------------
-- The tag
-- ---------------------------------------------------------------------------

def Settles (T : Set ℕ) (p : Prog σ ε α) : Prop := ∀ c a c', p.cached c = .ok (a, c') →
    ∃ t ∈ T, c'.tag = some t

theorem settles_put {T : Set ℕ} (h : n ∈ T) : Settles T (putSector n : Prog σ ε Unit) := by
  rintro c a c' ⟨⟩
  exact ⟨n, h, rfl⟩

theorem Settles.after {T : Set ℕ} (h : ∀ a, Settles T (f a)) : Settles T (p >>= f) := by
  intro c b c' hrun
  obtain ⟨a, c₁, -, hrest⟩ := Prog.cached_bind_ok.mp hrun
  exact h a c₁ b c' hrest

def Still (p : Prog σ ε α) : Prop := ∀ c a c', p.cached c = .ok (a, c') → c'.tag = c.tag

theorem Still.pure (a : α) : Still (Pure.pure a : Prog σ ε α) := by
  rintro c b c' ⟨⟩
  rfl

theorem still_flush : Still (flushSector : Prog σ ε Unit) := by
  rintro c b c' ⟨⟩
  rfl

theorem still_write (n : ℕ) : Still (writeSector n : Prog σ ε Unit) := by
  rintro c b c' ⟨⟩
  rfl

theorem Still.onBuf (hp : p.onBuf) : Still p := by
  induction p with
  | pure a => exact .pure a
  | fail e => exact fun _ _ _ => nofun
  | load k ih => exact fun c a c' hrun => ih c.buf (hp c.buf) c a c' hrun
  | store s k ih => exact fun c a c' hrun => ih hp { c with buf := s } a c' hrun
  | get | put | flush | write => exact hp.elim

theorem Still.bind (hp : Still p) (hf : ∀ a, Still (f a)) : Still (p >>= f) := by
  intro c b c' hrun
  obtain ⟨a, c₁, h₁, hrest⟩ := Prog.cached_bind_ok.mp hrun
  exact (hf a c₁ b c' hrest).trans (hp c a c₁ h₁)

theorem Settles.still {T : Set ℕ} (h : Settles T p) (hf : ∀ a, Still (f a)) :
    Settles T (p >>= f) := by
  intro c b c' hrun
  obtain ⟨a, c₁, hp, hrest⟩ := Prog.cached_bind_ok.mp hrun
  rw [hf a c₁ b c' hrest]
  exact h c a c₁ hp

theorem Does.settles {T : Set ℕ} (h : Does S P p Q) (ht : Settles T p) :
    Does S P p fun a c => Q a c ∧ ∃ t ∈ T, c.tag = some t := by
  intro c hc
  obtain ⟨hw, a, c', hrun, hq⟩ := h c hc
  exact ⟨hw, a, c', hrun, hq, ht c a c' hrun⟩

end

-- ---------------------------------------------------------------------------
-- Ghost values
-- ---------------------------------------------------------------------------

def Erases {γ : Type} (p : Prog σ ε (γ × α)) (q : Prog σ ε α) : Prop :=
  ∀ c, (p.cached c).map (fun r => (r.1.2, r.2)) = q.cached c

section
variable {γ δ : Type}

theorem Erases.pure (g : γ) (a : α) : Erases (Pure.pure (g, a) : Prog σ ε (γ × α)) (Pure.pure a) :=
  fun _ => rfl

theorem Erases.bind {p : Prog σ ε α} {f : α → Prog σ ε (γ × β)} {f' : α → Prog σ ε β}
    (h : ∀ a, Erases (f a) (f' a)) :
    Erases (p >>= f) (p >>= f') := by
  intro c
  rw [Prog.cached_bind, Prog.cached_bind]
  match p.cached c with
  | .ok (a, c') => exact h a c'
  | .error e => rfl

theorem Erases.bind_seen {p : Prog σ ε (γ × α)} {q : Prog σ ε α} {f : γ × α → Prog σ ε (γ × β)}
    {f' : α → Prog σ ε β}
    (h : Erases p q) (hf : ∀ g a, Erases (f (g, a)) (f' a)) : Erases (p >>= f) (q >>= f') := by
  intro c
  rw [Prog.cached_bind, Prog.cached_bind, ← h c]
  match p.cached c with
  | .ok ((g, a), c') => exact hf g a c'
  | .error e => rfl

theorem Erases.map {p : Prog σ ε (γ × α)} {q : Prog σ ε α} (h : Erases p q) (g : γ → δ) :
    Erases (p >>= fun r => Pure.pure (g r.1, r.2)) q := by
  intro c
  rw [← h c, Prog.cached_bind]
  match p.cached c with
  | .ok (a, c') => rfl
  | .error e => rfl

theorem Erases.ite {p p' : Prog σ ε (γ × α)} {q q' : Prog σ ε α} {t : Prop} [Decidable t]
    (h : Erases p q) (h' : Erases p' q') :
    Erases (if t then p else p') (if t then q else q') := by
  split
  · exact h
  · exact h'

theorem Erases.run {p : Prog σ ε (γ × α)} {q : Prog σ ε α} (h : Erases p q)
    (hp : p.cached c = .ok ((g, a), c')) :
    q.cached c = .ok (a, c') := by
  rw [← h c, hp]
  rfl

end

-- ---------------------------------------------------------------------------
-- What was in the buffer
-- ---------------------------------------------------------------------------

def outcome : Except ε (α × Direct σ) → Except ε (α × (ℕ → σ))
  | .ok (a, d) => .ok (a, d.disk)
  | .error e => .error e

def Blind (p : Prog σ ε α) : Prop := ∀ D b b', outcome (p.direct ⟨b, D⟩) =
    outcome (p.direct ⟨b', D⟩)

theorem Blind.pure (a : α) : Blind (Pure.pure a : Prog σ ε α) := fun _ _ _ => rfl

theorem Blind.fail (e : ε) : Blind (.fail e : Prog σ ε α) := fun _ _ _ => rfl

theorem Blind.get (n : ℕ) (f : Unit → Prog σ ε α) : Blind (getSector n >>= f) := fun _ _ _ => rfl

theorem Blind.bind {p : Prog σ ε α} {f : α → Prog σ ε β} (hp : Blind p) (hf : ∀ a, Blind (f a)) :
    Blind (p >>= f) := by
  intro D b b'
  have h := hp D b b'
  rw [Prog.direct_bind, Prog.direct_bind]
  match hx : p.direct ⟨b, D⟩, hy : p.direct ⟨b', D⟩ with
  | .ok (a, d), .ok (a', d') =>
    rw [hx, hy] at h
    obtain ⟨rfl, hd⟩ : a = a' ∧ d.disk = d'.disk := by simpa [outcome] using h
    obtain ⟨b₁, D₁⟩ := d
    obtain ⟨b₂, D₂⟩ := d'
    cases hd
    exact hf a D₁ b₁ b₂
  | .error e, .error e' =>
    rw [hx, hy] at h
    exact congrArg Except.error (Except.error.inj h)
  | .ok _, .error _ | .error _, .ok _ =>
    rw [hx, hy] at h
    cases h

theorem Blind.same {p : Prog σ ε α} (hb : Blind p) (ht : Transparent p) (hq : p.calm) {D : ℕ → σ}
    {c c' : Cached σ}
    (hc : On D c) (hc' : On D c') : (p.cached c).map Prod.fst = (p.cached c').map Prod.fst := by
  have h := ht c ⟨c.buf, D⟩ hc.agree (hq.quiet c)
  have h' := ht c' ⟨c'.buf, D⟩ hc'.agree (hq.quiet c')
  have hb := hb D c.buf c'.buf
  match hx : p.cached c, hy : p.cached c', hd : p.direct ⟨c.buf, D⟩, hd' : p.direct ⟨c'.buf, D⟩ with
  | .ok (a, c₁), .ok (a', c₂), .ok (b, d), .ok (b', d') =>
    rw [hx, hd] at h
    rw [hy, hd'] at h'
    rw [hd, hd'] at hb
    obtain ⟨rfl, -⟩ : b = b' ∧ d.disk = d'.disk := by simpa [outcome] using hb
    simp [Except.map, h.1, h'.1]
  | .error e, .error e', .error e₁, .error e₂ =>
    rw [hx, hd] at h
    rw [hy, hd'] at h'
    rw [hd, hd'] at hb
    have hb : e₁ = e₂ := by simpa [outcome] using hb
    simp only [Except.map]
    rw [show e = e₁ from h, show e' = e₂ from h', hb]
  | .ok _, _, .error _, _ | .error _, _, .ok _, _ => rw [hx, hd] at h; exact h.elim
  | _, .ok _, _, .error _ | _, .error _, _, .ok _ => rw [hy, hd'] at h'; exact h'.elim
  | .ok _, .error _, .ok _, .error _ | .error _, .ok _, .error _, .ok _ =>
    rw [hd, hd'] at hb
    cases hb

/-- A program that keeps the disk gives the same value whatever is in the cache. -/
theorem Blind.gives {S : Set ℕ} {p : Prog σ ε α} {D : ℕ → σ} {c₀ : Cached σ} (hb : Blind p)
    (ht : Transparent p) (hq : p.calm)
    (hd : Does S (On D) p fun _ => On D) (hc₀ : On D c₀) (hv : p.cached c₀ = .ok (v, c₁)) :
    Gives S (On D) p v (On D) := by
  intro c hc
  obtain ⟨hw, a, c', hrun, hc'⟩ := hd c hc
  have hsame := hb.same ht hq hc hc₀
  rw [hrun, hv] at hsame
  exact ⟨hw, a, c', hrun, Except.ok.inj hsame, hc'⟩

end WriteBack
