import Mathlib.Logic.Basic

/-! Clients of a service: what a client asks next depends on the answers that it got. Services
that answer alike are the same to every client. Independent of what is asked and answered. -/
namespace QGpgME

/-- A client ends with a result, or asks and goes on with the answer. -/
inductive Client (κ α ρ : Type*) where
  | done (r : ρ)
  | ask (c : κ) (next : α → Client κ α ρ)

namespace Client
variable {κ μ α ρ σ τ υ : Type*}

/-- A service that answers none has come to harm. -/
def serve (step : σ → κ → Option (α × σ)) : Client κ α ρ → σ → Option (ρ × σ)
  | .done r, s => some (r, s)
  | .ask c next, s => (step s c).bind fun a => (next a.1).serve step a.2

/-- Every question is asked in a state where `ok` holds of it. -/
def Along (step : σ → κ → Option (α × σ)) (ok : σ → κ → Prop) : Client κ α ρ → σ → Prop
  | .done _, _ => True
  | .ask c next, s => ok s c ∧ ∀ a, step s c = some a → (next a.1).Along step ok a.2

/-- The services stay related, and give the same answers to what is asked properly. -/
def Simulates (f : σ → κ → Option (α × σ)) (ok : σ → κ → Prop) (g : τ → κ → Option (α × τ))
    (R : σ → τ → Prop) : Prop :=
  ∀ s t c, R s t → ok s c →
    ∃ a s' t', f s c = some (a, s') ∧ g t c = some (a, t') ∧ R s' t'

variable {f : σ → κ → Option (α × σ)} {g : τ → κ → Option (α × τ)} {ok : σ → κ → Prop}
  {R : σ → τ → Prop}

theorem serve_ask {c : κ} {next : α → Client κ α ρ} {s s' : σ} {a : α}
    (h : f s c = some (a, s')) : (Client.ask c next).serve f s = (next a).serve f s' := by
  simp [serve, h]

/-- A client cannot tell services that answer alike from each other. -/
theorem Simulates.serve (h : Simulates f ok g R) (client : Client κ α ρ) {s : σ} {t : τ}
    (hR : R s t) (hok : client.Along f ok s) :
    ∃ r s' t', client.serve f s = some (r, s') ∧ client.serve g t = some (r, t') ∧ R s' t' := by
  induction client generalizing s t with
  | done r => exact ⟨r, s, t, rfl, rfl, hR⟩
  | ask c next ih =>
    obtain ⟨hc, hnext⟩ := hok
    obtain ⟨a, s₁, t₁, hf, hg, hR₁⟩ := h s t c hR hc
    obtain ⟨r, s', t', hs, ht, hR'⟩ := ih a hR₁ (hnext (a, s₁) hf)
    exact ⟨r, s', t', (serve_ask hf).trans hs, (serve_ask hg).trans ht, hR'⟩

/-- Two services behind one: each question says which of them it is for. -/
def both (f : σ → κ → Option (α × σ)) (g : τ → μ → Option (α × τ)) :
    σ × τ → κ ⊕ μ → Option (α × (σ × τ))
  | (s, t), .inl c => (f s c).map fun a => (a.1, (a.2, t))
  | (s, t), .inr c => (g t c).map fun a => (a.1, (s, a.2))

/-- Each question is a proper one for the service that it is for. -/
def BothOk (ok : σ → κ → Prop) (ok' : τ → μ → Prop) (s : σ × τ) : κ ⊕ μ → Prop
  | .inl c => ok s.1 c
  | .inr c => ok' s.2 c

/-- Services that are simulated one by one are simulated together. -/
theorem Simulates.both {σ' τ' : Type*} {f' : σ' → μ → Option (α × σ')}
    {g' : τ' → μ → Option (α × τ')} {ok' : σ' → μ → Prop} {R' : σ' → τ' → Prop}
    (h : Simulates f ok g R) (h' : Simulates f' ok' g' R') :
    Simulates (both f f') (BothOk ok ok') (both g g') fun s t => R s.1 t.1 ∧ R' s.2 t.2 := by
  rintro ⟨s, s'⟩ ⟨t, t'⟩ c ⟨hR, hR'⟩ hok
  cases c with
  | inl c =>
    obtain ⟨a, s₁, t₁, hf, hg, hR₁⟩ := h s t c hR hok
    exact ⟨a, (s₁, s'), (t₁, t'), by simp [Client.both, hf], by simp [Client.both, hg], hR₁, hR'⟩
  | inr c =>
    obtain ⟨a, s₁, t₁, hf, hg, hR₁⟩ := h' s' t' c hR' hok
    exact ⟨a, (s, s₁), (t, t₁), by simp [Client.both, hf], by simp [Client.both, hg], hR, hR₁⟩

/-- A service that always answers simulates itself. -/
theorem Simulates.self (h : ∀ s c, ok s c → (f s c).isSome) : Simulates f ok f Eq := by
  rintro s t c rfl hok
  obtain ⟨a, ha⟩ := Option.isSome_iff_exists.mp (h s c hok)
  exact ⟨a.1, a.2, a.2, ha, ha, rfl⟩

end Client

end QGpgME
