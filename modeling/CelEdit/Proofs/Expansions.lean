import CelEdit.Proofs.Layouts
import CelEdit.Proofs.Tables
import Mathlib.Data.List.Perm.Subperm

/-!
# Expansions of macro calls

Rendering as a program with a state: it writes to the end of a text and keeps the keys of the macro
calls that it is expanding on a stack. Nothing in its recursion bounds it, as it jumps from nodes to
shadows that can be larger and can lead back. What ends it is the stack: a key on it is not expanded
again. So it always comes to an end, leaves the stack as it was, and gives the rendering.
-/

namespace CelEdit.Unparse

open CelEdit.Expr

/-- The state of a renderer: the keys being expanded, the innermost first, and the text so far. For
every call it was given it notes the keys that were being expanded then. -/
structure Progress where
  expanding : List NodeId
  out : List Char
  entered : List (List NodeId)

namespace Progress

def start : Progress := ⟨[], [], []⟩

def enter (s : Progress) : Progress := { s with entered := s.expanding :: s.entered }

def push (id : NodeId) (s : Progress) : Progress := { s with expanding := id :: s.expanding }

def pop (s : Progress) : Progress := { s with expanding := s.expanding.tail }

def put (chars : List Char) (s : Progress) : Progress := { s with out := s.out ++ chars }

end Progress

/-- A run of the renderer has no outcome when it does not end. -/
abbrev Writing := StateT Progress Option (Except UnparseError Unit)

/-- A renderer has the macro calls at hand. -/
structure Renderer where
  calls : IdMap Expr

namespace Renderer

mutual

def write (r : Renderer) (e : Expr) : Writing := do
  modify Progress.enter
  let s ← get
  match macroCall? r.calls s.expanding e.id with
  | some call =>
    modify (Progress.push e.id)
    let result ← r |>.write call
    modify Progress.pop
    pure result
  | none =>
    match layout e.id e.kind with
    | .error err => pure (.error err)
    | .ok ps => r |>.writePieces ps
partial_fixpoint

/-- Writes pieces in a row, up to the first error. -/
def writePieces (r : Renderer) : List Piece → Writing
  | [] => pure (.ok ())
  | .text chars :: ps => do
    modify (Progress.put chars)
    r |>.writePieces ps
  | .node e :: ps => do
    match ← r |>.write e with
    | .error err => pure (.error err)
    | .ok () => r |>.writePieces ps
  | .operand limit e :: ps => do
    let s ← get
    if (macroCall? r.calls s.expanding e.id).isNone && looserThan limit e then
      r |>.writePieces (.text ['('] :: .node e :: .text [')'] :: ps)
    else
      r |>.writePieces (.node e :: ps)
partial_fixpoint

end

end Renderer

/-- Writes a tree. -/
abbrev write (calls : IdMap Expr) (e : Expr) : Writing := Renderer.write ⟨calls⟩ e

abbrev writePieces (calls : IdMap Expr) (ps : List Piece) : Writing :=
  Renderer.writePieces ⟨calls⟩ ps

section Equations

variable {calls : IdMap Expr} {e call : Expr} {ps : List Piece} {s t u : Progress}
  {result : Except UnparseError Unit} {err : UnparseError}

lemma write_of_macroCall (h : macroCall? calls s.expanding e.id = some call)
    (hcall : (write calls call).run (s.enter.push e.id) = some (result, t)) :
    (write calls e).run s = some (result, t.pop) := by
  have henter : macroCall? calls s.enter.expanding e.id = some call := h
  rw [write, Renderer.write]
  simp [henter, hcall]

lemma write_of_error (h : macroCall? calls s.expanding e.id = none)
    (herr : layout e.id e.kind = .error err) :
    (write calls e).run s = some (.error err, s.enter) := by
  have henter : macroCall? calls s.enter.expanding e.id = none := h
  rw [write, Renderer.write]
  simp [henter, herr]

lemma write_of_layout (h : macroCall? calls s.expanding e.id = none)
    (hps : layout e.id e.kind = .ok ps) :
    (write calls e).run s = (writePieces calls ps).run s.enter := by
  have henter : macroCall? calls s.enter.expanding e.id = none := h
  rw [write, Renderer.write]
  simp [henter, hps]

lemma writePieces_nil : (writePieces calls []).run s = some (.ok (), s) := by
  rw [writePieces, Renderer.writePieces]
  rfl

lemma writePieces_text (chars : List Char) :
    (writePieces calls (.text chars :: ps)).run s = (writePieces calls ps).run (s.put chars) := by
  rw [writePieces, Renderer.writePieces]
  simp

lemma writePieces_node_ok (h : (write calls e).run s = some (.ok (), t)) :
    (writePieces calls (.node e :: ps)).run s = (writePieces calls ps).run t := by
  rw [writePieces, Renderer.writePieces]
  simp [h]

lemma writePieces_node_error (h : (write calls e).run s = some (.error err, t)) :
    (writePieces calls (.node e :: ps)).run s = some (.error err, t) := by
  rw [writePieces, Renderer.writePieces]
  simp [h]

lemma writePieces_operand (limit : Nat) :
    (writePieces calls (.operand limit e :: ps)).run s =
      if (macroCall? calls s.expanding e.id).isNone && looserThan limit e then
        (writePieces calls (.text ['('] :: .node e :: .text [')'] :: ps)).run s
      else (writePieces calls (.node e :: ps)).run s := by
  conv_lhs => rw [writePieces, Renderer.writePieces]
  simp only [StateT.run_bind, StateT.run_get, pure_bind]
  split <;> rfl

end Equations

/-! ### What a run leaves behind -/

/-- The second list of keys comes from the first by pushing keys of the table that are not in it. -/
inductive Opens (calls : IdMap Expr) (keys : List NodeId) : List NodeId → Prop
  | refl : Opens calls keys keys
  | push {id : NodeId} {more : List NodeId} (known : id ∈ calls.keys) (new : id ∉ more)
      (rest : Opens calls keys more) : Opens calls keys (id :: more)

section Runs

variable {calls : IdMap Expr}

lemma Opens.trans {keys more most : List NodeId} (h : Opens calls keys more)
    (h' : Opens calls more most) : Opens calls keys most := by
  induction h' with
  | refl => exact h
  | push known new _ ih => exact .push known new ih

lemma opens_of_macroCall {keys : List NodeId} {id : NodeId} {call : Expr}
    (h : macroCall? calls keys id = some call) : Opens calls keys (id :: keys) := by
  unfold macroCall? at h
  split at h
  · next hopen => exact .push (mem_keys_of_get? h) hopen.2 .refl
  · cases h

/-- Keys that are opened one inside the other are different keys of the table. -/
lemma Opens.sound {keys : List NodeId} (h : Opens calls [] keys) :
    keys.Nodup ∧ (∀ key ∈ keys, key ∈ calls.keys) ∧ keys.length ≤ calls.size := by
  have hkeys : keys.Nodup ∧ ∀ key ∈ keys, key ∈ calls.keys := by
    induction h with
    | refl => exact ⟨.nil, fun _ hkey => absurd hkey List.not_mem_nil⟩
    | push known new _ ih =>
      exact ⟨List.nodup_cons.2 ⟨new, ih.1⟩, List.forall_mem_cons.2 ⟨known, ih.2⟩⟩
  refine ⟨hkeys.1, hkeys.2, ?_⟩
  have hlength := hkeys.1.length_le_of_subset hkeys.2
  rwa [IdMap.keys, List.length_map] at hlength

/-- The stack is as it was, and all calls in between were given keys opened on top of it. -/
structure Advances (calls : IdMap Expr) (s t : Progress) : Prop where
  expanding : t.expanding = s.expanding
  entered : ∀ keys ∈ t.entered, keys ∈ s.entered ∨ Opens calls s.expanding keys

namespace Advances

variable {s t u : Progress}

lemma refl (s : Progress) : Advances calls s s := ⟨rfl, fun _ hkeys => .inl hkeys⟩

lemma trans (h : Advances calls s t) (h' : Advances calls t u) : Advances calls s u := by
  refine ⟨h'.expanding.trans h.expanding, fun keys hkeys => ?_⟩
  rcases h'.entered keys hkeys with hkeys | hopens
  · exact h.entered keys hkeys
  · exact .inr (h.expanding ▸ hopens)

lemma enter (s : Progress) : Advances calls s s.enter := by
  refine ⟨rfl, fun keys hkeys => ?_⟩
  rcases List.mem_cons.1 hkeys with rfl | hkeys
  · exact .inr .refl
  · exact .inl hkeys

lemma put (chars : List Char) (s : Progress) : Advances calls s (s.put chars) :=
  ⟨rfl, fun _ hkeys => .inl hkeys⟩

/-- An expansion leaves its key on the stack, which is then taken from it. -/
lemma expand {id : NodeId} {call : Expr} (h : macroCall? calls s.expanding id = some call)
    (hcall : Advances calls (s.push id) t) : Advances calls s t.pop := by
  refine ⟨congrArg List.tail hcall.expanding, fun keys hkeys => ?_⟩
  rcases hcall.entered keys hkeys with hkeys | hopens
  · exact .inl hkeys
  · exact .inr ((opens_of_macroCall h).trans hopens)

end Advances

/-- The renderer writes this text, wherever the listed keys are being expanded. -/
def Writes (calls : IdMap Expr) (keys : List NodeId) (x : Writing) (text : Rendering) : Prop :=
  ∀ s : Progress, s.expanding = keys → ∃ t, x.run s = some (text.map (fun _ => ()), t) ∧
    Advances calls s t ∧ ∀ chars, text = .ok chars → t.out = s.out ++ chars

namespace Writes

variable {keys : List NodeId} {e : Expr} {ps : List Piece} {text rest : Rendering}

/-- What is already written stands before what is still to be written. -/
lemma after {x : Writing} {s t : Progress} {chars : List Char} (h : Writes calls keys x rest)
    (hs : s.expanding = keys) (hadvances : Advances calls s t) (hout : t.out = s.out ++ chars) :
    let all : Rendering := do
      let rest ← rest
      pure (chars ++ rest)
    ∃ u, x.run t = some (all.map (fun _ => ()), u) ∧ Advances calls s u ∧
      ∀ written, all = .ok written → u.out = s.out ++ written := by
  intro all
  obtain ⟨u, hrun, hadvances', hout'⟩ := h t (hadvances.expanding.trans hs)
  cases rest with
  | error err => exact ⟨u, hrun, hadvances.trans hadvances', fun _ h => nomatch h⟩
  | ok more =>
    refine ⟨u, hrun, hadvances.trans hadvances', fun written hwritten => ?_⟩
    obtain rfl : chars ++ more = written := Except.ok.inj hwritten
    rw [hout' more rfl, hout, List.append_assoc]

lemma cons_text (h : Writes calls keys (writePieces calls ps) rest) (chars : List Char) :
    Writes calls keys (writePieces calls (.text chars :: ps)) (do
      let rest ← rest
      pure (chars ++ rest)) := by
  intro s hs
  rw [writePieces_text]
  exact h.after hs (.put chars s) rfl

lemma cons_node (he : Writes calls keys (write calls e) text)
    (hps : Writes calls keys (writePieces calls ps) rest) :
    Writes calls keys (writePieces calls (.node e :: ps)) (do
      let text ← text
      let rest ← rest
      pure (text ++ rest)) := by
  intro s hs
  obtain ⟨t, hrun, hadvances, hout⟩ := he s hs
  cases text with
  | error err => exact ⟨t, writePieces_node_error hrun, hadvances, fun _ h => nomatch h⟩
  | ok chars =>
    rw [writePieces_node_ok hrun]
    exact hps.after hs hadvances (hout chars rfl)

lemma cons_operand (he : Writes calls keys (write calls e) text)
    (hps : Writes calls keys (writePieces calls ps) rest) (limit : Nat) :
    Writes calls keys (writePieces calls (.operand limit e :: ps)) (do
      let text ← operand (fun i => (macroCall? calls keys i).isSome) limit (e, fun _ => text)
      let rest ← rest
      pure (text ++ rest)) := by
  intro s hs
  rw [writePieces_operand, hs, ← Option.not_isSome]
  unfold operand
  split
  · -- the parentheses are pieces of their own
    have hparenthesized := ((he.cons_node (hps.cons_text [')'])).cons_text ['(']) s hs
    simpa [Child.text] using hparenthesized
  · have hplain := (he.cons_node hps) s hs
    simpa [Child.text] using hplain

end Writes

/-- Pieces in a row are written once the nodes among them are. -/
theorem writes_pieces {keys : List NodeId} {ps : List Piece}
    (h : ∀ e ∈ nodes ps, Writes calls keys (write calls e) (render calls keys e)) :
    Writes calls keys (writePieces calls ps)
      (writeAll (fun i => (macroCall? calls keys i).isSome) (render calls keys) ps) := by
  induction ps with
  | nil =>
    intro s hs
    refine ⟨s, writePieces_nil, .refl s, ?_⟩
    rintro _ ⟨⟩
    exact (List.append_nil _).symm
  | cons p ps ih =>
    cases p with
    | text chars => exact (ih h).cons_text chars
    | node e =>
      exact (h e List.mem_cons_self).cons_node (ih fun c hc => h c (List.mem_cons_of_mem _ hc))
    | operand limit e =>
      exact (h e List.mem_cons_self).cons_operand
        (ih fun c hc => h c (List.mem_cons_of_mem _ hc)) limit

/-- However the macro calls refer to each other, the renderer ends with the rendering. -/
theorem writes_render (calls : IdMap Expr) (keys : List NodeId) (e : Expr) :
    Writes calls keys (write calls e) (render calls keys e) := by
  -- on the keys that can still be expanded, and for fixed keys on the tree
  induction hn : (pendingKeys calls keys).length using Nat.strongRecOn generalizing keys e with
  | _ n ihn =>
    induction e using Expr.induct with
    | node id k ih =>
      intro s hs
      rw [render_mk]
      cases hcall : macroCall? calls keys id with
      | some call =>
        have hkeys : (s.enter.push id).expanding = id :: keys := congrArg (id :: ·) hs
        have hmacro : macroCall? calls s.expanding id = some call := hs ▸ hcall
        obtain ⟨t, hrun, hadvances, hout⟩ := ihn _ (hn ▸ pendingKeys_lt hcall) _ call rfl _ hkeys
        have hexpand : Advances calls s.enter t.pop := Advances.expand hmacro hadvances
        exact ⟨t.pop, write_of_macroCall hmacro hrun, (Advances.enter s).trans hexpand, hout⟩
      | none =>
        have hmacro : macroCall? calls s.expanding id = none := hs ▸ hcall
        dsimp only
        rw [nodeText_eq_layout]
        cases hlayout : layout id k with
        | error err =>
          exact ⟨s.enter, write_of_error hmacro hlayout, .enter s, fun _ h => nomatch h⟩
        | ok ps =>
          obtain ⟨raw, hchildren, -⟩ := nodes_layout hlayout
          have hnodes : ∀ c ∈ nodes ps, Writes calls keys (write calls c) (render calls keys c) :=
            fun c hc => ih c (hchildren ▸ List.mem_append_left raw hc)
          obtain ⟨t, hrun, hadvances, hout⟩ := writes_pieces hnodes s.enter hs
          exact ⟨t, (write_of_layout hmacro hlayout).trans hrun, (Advances.enter s).trans hadvances,
            hout⟩

end Runs

/-- Whatever the macro calls are, every call of the renderer ends, in a text or an error, with the
stack of keys as it found it. On the way from the empty stack no call is given a key twice or one that
is not in the table, so there are never more keys than macro calls; and the text or error at the end
is that of the tree. -/
theorem unparse_terminates (calls : IdMap Expr) (e : Expr) :
    (∀ (c : Expr) (s : Progress), ∃ result t,
      (write calls c).run s = some (result, t) ∧ t.expanding = s.expanding) ∧
    ∃ result t, (write calls e).run .start = some (result, t) ∧
      e.unparse calls = result.map (fun _ => String.ofList t.out) ∧
      ∀ keys ∈ t.entered,
        keys.Nodup ∧ (∀ key ∈ keys, key ∈ calls.keys) ∧ keys.length ≤ calls.size := by
  constructor
  · intro c s
    obtain ⟨t, hrun, hadvances, -⟩ := writes_render calls s.expanding c s rfl
    exact ⟨_, t, hrun, hadvances.expanding⟩
  · obtain ⟨t, hrun, hadvances, hout⟩ := writes_render calls [] e .start rfl
    refine ⟨_, t, hrun, ?_, fun keys hkeys => ?_⟩
    · unfold Expr.unparse
      cases hrender : render calls [] e with
      | error err => rfl
      | ok chars =>
        have hchars : t.out = chars := hout chars hrender
        rw [hchars]
        rfl
    · rcases hadvances.entered keys hkeys with hkeys | hopens
      · cases hkeys
      · exact hopens.sound

/-- Two macro calls that refer to each other are each expanded once. -/
theorem unparse_terminates_circle :
    let calls : IdMap Expr := .ofList [
      (⟨1⟩, ⟨.unset, .call ⟨none, "f", [⟨⟨2⟩, .notSet⟩]⟩⟩),
      (⟨2⟩, ⟨.unset, .call ⟨none, "g", [⟨⟨1⟩, .ident ⟨"x"⟩⟩]⟩⟩)]
    let e : Expr := ⟨⟨1⟩, .notSet⟩
    e.unparse calls = .ok "f(g(x))" ∧ ∃ result t, (write calls e).run .start = some (result, t) ∧
      ∀ keys ∈ t.entered, keys.Nodup ∧ keys.length ≤ 2 := by
  intro calls e
  obtain ⟨-, result, t, hrun, -, hkeys⟩ := unparse_terminates calls e
  refine ⟨except_toOption_eq_some.1 (by decide +kernel), result, t, hrun, fun keys hentered => ?_⟩
  obtain ⟨hnodup, -, hlength⟩ := hkeys keys hentered
  exact ⟨hnodup, hlength⟩

end CelEdit.Unparse
