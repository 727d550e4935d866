import Mathlib

/-!
# One sector of write-back cache

Programs that see a block device through one buffer: `get` brings a sector into
the buffer unless the buffer is tagged with it, and `put` tags the buffer and
leaves the write for later. `cached` runs a program so, and `direct` reads and
writes the device every time. A program that changes the buffer only between a
`get` and a `put` of one sector, or after a `flush` and before a `put`, cannot
tell the two apart.
-/

namespace WriteBack

variable {σ ε α β : Type}

-- ---------------------------------------------------------------------------
-- Programs
-- ---------------------------------------------------------------------------

inductive Prog (σ ε α : Type)
  | pure (a : α)
  | fail (e : ε)
  | get (n : ℕ) (k : Prog σ ε α)
  | put (n : ℕ) (k : Prog σ ε α)
  | flush (k : Prog σ ε α)
  | load (k : σ → Prog σ ε α)
  | store (s : σ) (k : Prog σ ε α)
  | write (n : ℕ) (k : Prog σ ε α)

namespace Prog

def bind : Prog σ ε α → (α → Prog σ ε β) → Prog σ ε β
  | pure a, f => f a
  | fail e, _ => fail e
  | get n k, f => get n (k.bind f)
  | put n k, f => put n (k.bind f)
  | flush k, f => flush (k.bind f)
  | load k, f => load fun s => (k s).bind f
  | store s k, f => store s (k.bind f)
  | write n k, f => write n (k.bind f)

instance : Monad (Prog σ ε) where
  pure := pure
  bind := bind

theorem bind_assoc (p : Prog σ ε α) (f : α → Prog σ ε β) (g : β → Prog σ ε γ) :
    (p >>= f) >>= g = p >>= fun a => f a >>= g := by
  induction p with
  | pure | fail => rfl
  | load k ih => exact congrArg load (funext ih)
  | get n k ih => exact congrArg (get n) ih
  | put n k ih => exact congrArg (put n) ih
  | flush k ih => exact congrArg flush ih
  | store s k ih => exact congrArg (store s) ih
  | write n k ih => exact congrArg (write n) ih

theorem pure_bind (a : α) (f : α → Prog σ ε β) : (Pure.pure a : Prog σ ε α) >>= f = f a := rfl

end Prog

def getSector (n : ℕ) : Prog σ ε Unit := .get n (.pure ())
def putSector (n : ℕ) : Prog σ ε Unit := .put n (.pure ())
def flushSector : Prog σ ε Unit := .flush (.pure ())
def loadBuf : Prog σ ε σ := .load .pure
def storeBuf (s : σ) : Prog σ ε Unit := .store s (.pure ())
def writeSector (n : ℕ) : Prog σ ε Unit := .write n (.pure ())

-- ---------------------------------------------------------------------------
-- Both ways to run a program
-- ---------------------------------------------------------------------------

structure Cached (σ : Type) where
  tag : Option ℕ
  dirty : Bool
  buf : σ
  dev : ℕ → σ

namespace Cached

def disk (c : Cached σ) : ℕ → σ :=
  match c.tag with
  | some t => if c.dirty then Function.update c.dev t c.buf else c.dev
  | none => c.dev

def flush (c : Cached σ) : Cached σ := { c with dev := c.disk, dirty := false }

def get (n : ℕ) (c : Cached σ) : Cached σ :=
  if c.tag = some n then c else { c.flush with tag := some n, buf := c.flush.dev n }

def put (n : ℕ) (c : Cached σ) : Cached σ :=
  { (if c.tag = some n then c else c.flush) with tag := some n, dirty := true }

structure Coherent (c : Cached σ) : Prop where
  clean : ∀ t, c.tag = some t → c.dirty = false → c.buf = c.dev t
  tagged : c.dirty = true → c.tag ≠ none

end Cached

structure Direct (σ : Type) where
  buf : σ
  disk : ℕ → σ

namespace Prog

def cached : Prog σ ε α → Cached σ → Except ε (α × Cached σ)
  | pure a, c => .ok (a, c)
  | fail e, _ => .error e
  | get n k, c => k.cached (c.get n)
  | put n k, c => k.cached (c.put n)
  | flush k, c => k.cached c.flush
  | load k, c => (k c.buf).cached c
  | store s k, c => k.cached { c with buf := s }
  | write n k, c => k.cached { c with dev := Function.update c.dev n c.buf }

def direct : Prog σ ε α → Direct σ → Except ε (α × Direct σ)
  | pure a, d => .ok (a, d)
  | fail e, _ => .error e
  | get n k, d => k.direct { d with buf := d.disk n }
  | put n k, d | write n k, d => k.direct { d with disk := Function.update d.disk n d.buf }
  | flush k, d => k.direct d
  | load k, d => (k d.buf).direct d
  | store s k, d => k.direct { d with buf := s }

def quiet : Prog σ ε α → Cached σ → Prop
  | pure _, _ | fail _, _ => True
  | get n k, c => k.quiet (c.get n)
  | put n k, c => k.quiet (c.put n)
  | flush k, c => k.quiet c.flush
  | load k, c => (k c.buf).quiet c
  | store s k, c => k.quiet { c with buf := s }
  | write _ _, _ => False

def quietDecidable : (p : Prog σ ε α) → (c : Cached σ) → Decidable (p.quiet c)
  | pure _, _ | fail _, _ => .isTrue trivial
  | get n k, c => k.quietDecidable (c.get n)
  | put n k, c => k.quietDecidable (c.put n)
  | flush k, c => k.quietDecidable c.flush
  | load k, c => (k c.buf).quietDecidable c
  | store s k, c => k.quietDecidable { c with buf := s }
  | write _ _, _ => .isFalse id

instance (p : Prog σ ε α) (c : Cached σ) : Decidable (p.quiet c) := p.quietDecidable c

def onBuf : Prog σ ε α → Prop
  | pure _ | fail _ => True
  | load k => ∀ s, (k s).onBuf
  | store _ k => k.onBuf
  | get _ _ | put _ _ | flush _ | write _ _ => False

def calm : Prog σ ε α → Prop
  | pure _ | fail _ => True
  | load k => ∀ s, (k s).calm
  | get _ k | put _ k | flush k | store _ k => k.calm
  | write _ _ => False

def ensures : Prog σ ε α → (α → Prop) → Prop
  | pure a, P => P a
  | fail _, _ => True
  | load k, P => ∀ s, (k s).ensures P
  | get _ k, P | put _ k, P | flush k, P | store _ k, P | write _ k, P => k.ensures P

theorem cached_bind (p : Prog σ ε α) (f : α → Prog σ ε β) (c : Cached σ) :
    (p >>= f).cached c = p.cached c >>= fun r => (f r.1).cached r.2 := by
  induction p generalizing c with
  | pure | fail => rfl
  | load k ih => exact ih _ _
  | get n k ih | put n k ih | flush k ih | store s k ih | write n k ih => exact ih _

theorem direct_bind (p : Prog σ ε α) (f : α → Prog σ ε β) (d : Direct σ) :
    (p >>= f).direct d = p.direct d >>= fun r => (f r.1).direct r.2 := by
  induction p generalizing d with
  | pure | fail => rfl
  | load k ih => exact ih _ _
  | get n k ih | put n k ih | flush k ih | store s k ih | write n k ih => exact ih _

theorem quiet_bind (p : Prog σ ε α) (f : α → Prog σ ε β) (c : Cached σ) :
    (p >>= f).quiet c ↔ p.quiet c ∧ ∀ a c', p.cached c = .ok (a, c') → (f a).quiet c' := by
  induction p generalizing c with
  | pure a => exact ⟨fun h => ⟨trivial, fun b c' hb => by cases hb; exact h⟩, fun h => h.2 a c rfl⟩
  | fail e => exact ⟨fun _ => ⟨trivial, nofun⟩, fun _ => trivial⟩
  | load k ih => exact ih _ _
  | get n k ih | put n k ih | flush k ih | store s k ih => exact ih _
  | write n k ih => exact ⟨False.elim, fun h => h.1⟩

theorem calm.quiet {p : Prog σ ε α} (h : p.calm) (c : Cached σ) : p.quiet c := by
  induction p generalizing c with
  | pure | fail => exact trivial
  | load k ih => exact ih _ (h _) c
  | get n k ih | put n k ih | flush k ih | store s k ih => exact ih h _
  | write => exact h.elim

theorem calm_bind {p : Prog σ ε α} {f : α → Prog σ ε β} (hp : p.calm) (hf : ∀ a, (f a).calm) :
    (p >>= f).calm := by
  induction p with
  | pure a => exact hf a
  | fail e => exact trivial
  | load k ih => exact fun s => ih s (hp s)
  | get n k ih | put n k ih | flush k ih | store s k ih => exact ih hp
  | write => exact hp.elim

theorem ensures_bind {p : Prog σ ε α} {f : α → Prog σ ε β} {P : α → Prop} {R : β → Prop}
    (hp : p.ensures P)
    (hf : ∀ a, P a → (f a).ensures R) : (p >>= f).ensures R := by
  induction p with
  | pure a => exact hf a hp
  | fail e => exact trivial
  | load k ih => exact fun s => ih s (hp s)
  | get n k ih | put n k ih | flush k ih | store s k ih | write n k ih => exact ih hp

theorem ensures_true (p : Prog σ ε α) : p.ensures fun _ => True := by
  induction p with
  | pure | fail => exact trivial
  | load k ih => exact fun s => ih s
  | get n k ih | put n k ih | flush k ih | store s k ih | write n k ih => exact ih

theorem ensures.mono {p : Prog σ ε α} {P R : α → Prop} (hp : p.ensures P) (h : ∀ a, P a → R a) :
    p.ensures R := by
  induction p with
  | pure a => exact h a hp
  | fail e => exact trivial
  | load k ih => exact fun s => ih s (hp s)
  | get n k ih | put n k ih | flush k ih | store s k ih | write n k ih => exact ih hp

theorem ensures.cached {p : Prog σ ε α} {P : α → Prop} (hp : p.ensures P)
    (h : p.cached c = .ok (a, c')) : P a := by
  induction p generalizing c with
  | pure b => cases h; exact hp
  | fail e => cases h
  | load k ih => exact ih _ (hp _) h
  | get n k ih | put n k ih | flush k ih | store s k ih | write n k ih => exact ih hp h

theorem onBuf.calm {p : Prog σ ε α} (h : p.onBuf) : p.calm := by
  induction p with
  | pure | fail => exact trivial
  | load k ih => exact fun s => ih s (h s)
  | store s k ih => exact ih h
  | get | put | flush | write => exact h.elim

theorem onBuf_bind {p : Prog σ ε α} {f : α → Prog σ ε β} (hp : p.onBuf) (hf : ∀ a, (f a).onBuf) :
    (p >>= f).onBuf := by
  induction p with
  | pure a => exact hf a
  | fail e => exact trivial
  | load k ih => exact fun s => ih s (hp s)
  | store s k ih => exact ih hp
  | get | put | flush | write => exact hp.elim

end Prog

-- ---------------------------------------------------------------------------
-- The cache is not seen
-- ---------------------------------------------------------------------------

structure Agree (c : Cached σ) (d : Direct σ) : Prop where
  buf : c.buf = d.buf
  disk : c.disk = d.disk
  coherent : c.Coherent

/-- The same, but for changes to the buffer that a `put n` is to follow. -/
structure Held (n : ℕ) (c : Cached σ) (d : Direct σ) : Prop where
  tag : c.tag = some n
  buf : c.buf = d.buf
  dev : ∀ m ≠ n, c.dev m = d.disk m

/-- The same, with a buffer that need not belong to its tag. -/
structure Loose (c : Cached σ) (d : Direct σ) : Prop where
  dirty : c.dirty = false
  buf : c.buf = d.buf
  dev : c.dev = d.disk

/-- Both runs fail alike, or give one value and states related by `Q`. -/
def Related (Q : α → Cached σ → Direct σ → Prop) : Except ε (α × Cached σ) →
    Except ε (α × Direct σ) → Prop
  | .ok (a, c), .ok (b, d) => a = b ∧ Q a c d
  | .error e, .error e' => e = e'
  | _, _ => False

/-- From states related by `P`, unless the program writes past the tag. -/
def Sim (P : Cached σ → Direct σ → Prop) (p : Prog σ ε α)
    (Q : α → Cached σ → Direct σ → Prop) : Prop :=
  ∀ c d, P c d → p.quiet c → Related Q (p.cached c) (p.direct d)

section
variable {c : Cached σ} {d : Direct σ} {P P' : Cached σ → Direct σ → Prop} {p : Prog σ ε α}
    {f : α → Prog σ ε β}
  {Q Q' : α → Cached σ → Direct σ → Prop} {R : β → Cached σ → Direct σ → Prop}

theorem Sim.pure (h : ∀ c d, P c d → Q a c d) : Sim P (Pure.pure a : Prog σ ε α) Q :=
  fun c d hp _ => ⟨rfl, h c d hp⟩

theorem Sim.fail : Sim P (.fail e : Prog σ ε α) Q := fun _ _ _ _ => rfl

theorem Sim.bind (hp : Sim P p Q) (hf : ∀ a, Sim (Q a) (f a) R) : Sim P (p >>= f) R := by
  intro c d h hq
  rw [Prog.quiet_bind] at hq
  have hrel := hp c d h hq.1
  rw [Prog.cached_bind, Prog.direct_bind]
  match hc : p.cached c, hd : p.direct d with
  | .ok (a, c'), .ok (b, d') =>
    rw [hc, hd] at hrel
    obtain ⟨rfl, hrel⟩ := hrel
    exact hf a c' d' hrel (hq.2 a c' hc)
  | .error e, .error e' =>
    rw [hc, hd] at hrel
    exact hrel
  | .ok (a, c'), .error e' => rw [hc, hd] at hrel; exact hrel.elim
  | .error e, .ok (b, d') => rw [hc, hd] at hrel; exact hrel.elim

theorem Related.mono (h : ∀ a c d, Q a c d → Q' a c d) {x : Except ε (α × Cached σ)}
    {y : Except ε (α × Direct σ)}
    (hr : Related Q x y) : Related Q' x y := by
  match x, y, hr with
  | .ok (a, c), .ok (b, d), ⟨hab, hq⟩ => exact ⟨hab, h a c d hq⟩
  | .error e, .error e', hr => exact hr

theorem Sim.mono (h : Sim P p Q) (hP : ∀ c d, P' c d → P c d) (hQ : ∀ a c d, Q a c d → Q' a c d) :
    Sim P' p Q' :=
  fun c d hp hq => (h c d (hP c d hp) hq).mono hQ

theorem Sim.post (h : Sim P p Q) (hQ : ∀ a c d, Q a c d → Q' a c d) : Sim P p Q' :=
  h.mono (fun _ _ => id) hQ

theorem Sim.ensures {G : α → Prop} (h : Sim P p Q) (hp : p.ensures G) :
    Sim P p fun a c d => Q a c d ∧ G a := by
  intro c d hP hq
  have hr := h c d hP hq
  match hc : p.cached c, hd : p.direct d with
  | .ok (a, c'), .ok (b, d') =>
    rw [hc, hd] at hr
    exact ⟨hr.1, hr.2, hp.cached hc⟩
  | .error e, .error e' =>
    rw [hc, hd] at hr
    exact hr
  | .ok (a, c'), .error e' | .error e, .ok (b, d') => rw [hc, hd] at hr; exact hr.elim

theorem Sim.given {G : Prop} (h : G → Sim P p Q) : Sim (fun c d => P c d ∧ G) p Q :=
  fun c d hp hq => h hp.2 c d hp.1 hq

theorem Sim.onBuf (hp : p.onBuf)
    (hP : ∀ c d s, P c d → c.buf = d.buf ∧ P { c with buf := s } { d with buf := s }) :
    Sim P p fun _ => P := by
  induction p with
  | pure a => exact fun c d h _ => ⟨rfl, h⟩
  | fail e => exact fun _ _ _ _ => rfl
  | load k ih =>
    intro c d h hq
    have hb := (hP c d c.buf h).1
    have hr := ih c.buf (hp c.buf) c d h hq
    simpa only [Prog.cached, Prog.direct, ← hb] using hr
  | store s k ih => exact fun c d h hq => ih hp _ _ (hP c d s h).2 hq
  | get | put | flush | write => exact hp.elim

-- ---------------------------------------------------------------------------
-- Steps
-- ---------------------------------------------------------------------------

theorem Cached.disk_clean (h : c.dirty = false) : c.disk = c.dev := by
  unfold Cached.disk
  split <;> simp [h]

theorem Cached.disk_of_ne {t : ℕ} (h : c.tag = some t) (hn : n ≠ t) : c.disk n = c.dev n := by
  unfold Cached.disk
  rw [h]
  simp only
  split
  · exact Function.update_of_ne hn _ _
  · rfl

theorem Cached.Coherent.held (h : c.Coherent) (ht : c.tag = some t) : c.disk t = c.buf := by
  unfold Cached.disk
  rw [ht]
  simp only
  split
  · exact Function.update_self _ _ _
  · exact (h.clean t ht (by simpa using ‹¬ c.dirty = true›)).symm

@[simp] theorem Cached.flush_disk (c : Cached σ) : c.flush.disk = c.disk := Cached.disk_clean rfl

theorem Cached.Coherent.flush (h : c.Coherent) : c.flush.Coherent :=
  ⟨fun _ ht _ => (h.held ht).symm, nofun⟩

theorem Agree.flush (h : Agree c d) : Agree c.flush d :=
  ⟨h.buf, (Cached.flush_disk c).trans h.disk, h.coherent.flush⟩

theorem Agree.loose (h : Agree c d) : Loose c.flush d := ⟨rfl, h.buf, h.disk⟩

theorem Agree.get (h : Agree c d) (n : ℕ) : Agree (c.get n) { d with buf := d.disk n } ∧
    (c.get n).tag = some n := by
  unfold Cached.get
  split
  · exact ⟨⟨by rw [← h.disk, h.coherent.held ‹_›], h.disk, h.coherent⟩, ‹_›⟩
  · refine ⟨⟨congrFun h.disk n, ?_, ⟨fun _ ht _ => ?_, nofun⟩⟩, rfl⟩
    · rw [Cached.disk_clean rfl]
      exact h.disk
    · cases ht
      rfl

theorem Agree.held (h : Agree c d) (ht : c.tag = some n) : Held n c d :=
  ⟨ht, h.buf, fun m hm => by rw [← h.disk, Cached.disk_of_ne ht hm]⟩

theorem put_agree (hbuf : c.buf = d.buf)
    (hdev : ∀ m ≠ n, (if c.tag = some n then c else c.flush).dev m = d.disk m) :
    Agree (c.put n) { d with disk := Function.update d.disk n d.buf } := by
  have hb : (c.put n).buf = d.buf := by
    unfold Cached.put
    split <;> exact hbuf
  refine ⟨hb, ?_, ⟨nofun, fun _ => by simp [Cached.put]⟩⟩
  funext m
  show Function.update (if c.tag = some n then c else c.flush).dev n (c.put n).buf m =
    Function.update d.disk n d.buf m
  rw [hb]
  by_cases hm : m = n
  · subst hm
    simp
  · rw [Function.update_of_ne hm, Function.update_of_ne hm]
    exact hdev m hm

theorem Held.put (h : Held n c d) :
    Agree (c.put n) { d with disk := Function.update d.disk n d.buf } :=
  put_agree h.buf fun m hm => by rw [if_pos h.tag]; exact h.dev m hm

theorem Agree.put (h : Agree c d) (n : ℕ) :
    Agree (c.put n) { d with disk := Function.update d.disk n d.buf } :=
  put_agree h.buf fun m hm => by
    split
    · exact (h.held ‹_›).dev m hm
    · exact congrFun h.disk m

theorem Loose.put (h : Loose c d) (n : ℕ) :
    Agree (c.put n) { d with disk := Function.update d.disk n d.buf } :=
  put_agree h.buf fun m _ => by
    split
    · exact congrFun h.dev m
    · exact congrFun ((Cached.disk_clean h.dirty).trans h.dev) m

-- ---------------------------------------------------------------------------
-- Rules
-- ---------------------------------------------------------------------------

def Transparent (p : Prog σ ε α) : Prop := Sim Agree p fun _ => Agree

theorem Transparent.pure (a : α) : Transparent (Pure.pure a : Prog σ ε α) := Sim.pure fun _ _ => id

theorem Transparent.fail (e : ε) : Transparent (.fail e : Prog σ ε α) := Sim.fail

theorem Transparent.bind (hp : Transparent p) (hf : ∀ a, Transparent (f a)) :
    Transparent (p >>= f) := Sim.bind hp hf

theorem Transparent.bind_ensures {G : α → Prop} (hp : Transparent p) (he : p.ensures G)
    (hf : ∀ a, G a → Transparent (f a)) :
    Transparent (p >>= f) := Sim.bind (Sim.ensures hp he) fun a => Sim.given (hf a)

/-- What comes after a program that leaves the states as it found them. -/
theorem Transparent.after (hp : Sim Agree p Q) (hf : ∀ a, Sim (Q a) (f a) fun _ => Agree) :
    Transparent (p >>= f) :=
  Sim.bind hp hf

theorem sim_get (n : ℕ) : Sim Agree (getSector n : Prog σ ε Unit) fun _ c d => Agree c d ∧
    c.tag = some n :=
  fun _ _ h _ => ⟨rfl, h.get n⟩

theorem sim_flush : Sim Agree (flushSector : Prog σ ε Unit) fun _ c d => Agree c d ∧ Loose c d :=
  fun _ _ h _ => ⟨rfl, h.flush, h.loose⟩

theorem sim_put_held (n : ℕ) : Sim (Held n) (putSector n : Prog σ ε Unit) fun _ => Agree :=
  fun _ _ h _ => ⟨rfl, h.put⟩

theorem sim_put_loose (n : ℕ) : Sim Loose (putSector n : Prog σ ε Unit) fun _ => Agree :=
  fun _ _ h _ => ⟨rfl, h.put n⟩

theorem Transparent.get (n : ℕ) : Transparent (getSector n : Prog σ ε Unit) :=
  (sim_get n).post fun _ _ _ h => h.1

theorem Transparent.put (n : ℕ) : Transparent (putSector n : Prog σ ε Unit) :=
  fun _ _ h _ => ⟨rfl, h.put n⟩

theorem Transparent.flush : Transparent (flushSector : Prog σ ε Unit) :=
  sim_flush.post fun _ _ _ h => h.1

theorem Transparent.load : Transparent (loadBuf : Prog σ ε σ) := fun _ _ h _ => ⟨h.buf, h⟩

theorem sim_held_onBuf (hp : p.onBuf) : Sim (Held n) p fun _ => Held n :=
  .onBuf hp fun _ _ _ h => ⟨h.buf, h.tag, rfl, h.dev⟩

theorem sim_loose_onBuf (hp : p.onBuf) : Sim Loose p fun _ => Loose :=
  .onBuf hp fun _ _ _ h => ⟨h.buf, h.dirty, rfl, h.dev⟩

theorem sim_get_held (n : ℕ) : Sim Agree (getSector n : Prog σ ε Unit) fun _ => Held n :=
  (sim_get n).post fun _ _ _ h => h.1.held h.2

theorem sim_flush_loose : Sim Agree (flushSector : Prog σ ε Unit) fun _ => Loose :=
  sim_flush.post fun _ _ _ h => h.2

theorem sim_write {Q : Unit → Cached σ → Direct σ → Prop} (n : ℕ) :
    Sim P (writeSector n : Prog σ ε Unit) Q := fun _ _ _ hq => hq.elim

/-- A run of a transparent program from a coherent state, and its value and disk
without the cache. -/
theorem Transparent.run (h : Transparent p) (hc : c.Coherent) (hq : p.quiet c) :
    Related (fun _ => Agree) (p.cached c) (p.direct ⟨c.buf, c.disk⟩) :=
      h c ⟨c.buf, c.disk⟩ ⟨rfl, rfl, hc⟩ hq

end

end WriteBack
