import CelEdit.Edit.Bind
import CelEdit.Proofs.Replacements

/-!
# Binding a variable

All ids of the comprehension that binds a variable come from one run of a supply: new ones for the
initial value and for the nodes around it, and exchanges for the result.
-/

namespace CelEdit.Workspace

open Runs CelEdit.Expr

variable {budget : Nat} {name : String} {init result bound : Expr} {s t : IdSupply}
  {host donor : Workspace} {populate : Bool}

/-- The comprehension and the run of the supply that numbers it. -/
theorem bindComprehension_cases
    (h : Ends (bindComprehension budget name init result) s bound t) :
    ∃ (accuInit result' : Expr) (null range condition step id : NodeId),
      bound = ⟨id, .comprehension ⟨name, ⟨range, .list ⟨[⟨null, .constant .null⟩], .empty⟩⟩, name,
        accuInit, ⟨condition, .constant (.bool false)⟩, ⟨step, .ident ⟨name⟩⟩, result'⟩⟩ ∧
      accuInit.eraseIds = init.eraseIds ∧ result'.eraseIds = result.eraseIds ∧
      Thread (fun i => Ends (IdSupply.exchange i))
        (init.slots.map (fun _ => .unset) ++ result.slots ++ List.replicate 5 .unset) s
        (accuInit.slots ++ result'.slots ++ [null, range, condition, step, id]) t := by
  simp only [bindComprehension, ends_bind, ends_pure] at h
  obtain ⟨accuInit, s₁, hinit, result', s₂, hresult, null, s₃, hnull, range, s₄, hrange, condition,
    s₅, hcondition, step, s₆, hstep, id, s₇, hid, rfl, rfl⟩ := h
  obtain ⟨hinitShape, -, hinit⟩ := ends_renumber_run'.1 hinit
  obtain ⟨hshape, -, hresult⟩ := ends_renumber_run'.1 hresult
  have hmints : Thread (fun i => Ends (IdSupply.exchange i)) (List.replicate 5 .unset) s₂
      [null, range, condition, step, id] t :=
    .cons hnull (.cons hrange (.cons hcondition (.cons hstep (.cons hid (.nil t)))))
  refine ⟨accuInit, result', null, range, condition, step, id, rfl, hinitShape, hshape, ?_⟩
  exact ((IdSupply.thread_fresh.1 hinit).append hresult).append hmints

/-- If the ids of the result are distinct, those of the comprehension are, whatever the initial value
is. -/
theorem distinct_of_bindComprehension {seed : NodeId} (hresult : result.DistinctIds)
    (h : Ends (bindComprehension budget name init result) (.ofSeed seed) bound t) :
    bound.DistinctIds := by
  obtain ⟨accuInit, result', null, range, condition, step, id, rfl, -, -, hthread⟩ :=
    bindComprehension_cases h
  have hrun : IdSupply.Exchanges (fun _ => True) (.ofSeed seed) _ _ t := .of_thread hthread
  have hset : (init.slots.map (fun _ => NodeId.unset) ++ result.slots ++
      List.replicate 5 NodeId.unset).filter NodeId.isSet = result.slots.filter NodeId.isSet := by
    have hfresh : (init.slots.map (fun _ => NodeId.unset)).filter NodeId.isSet = [] := by
      rw [List.filter_eq_nil_iff]
      intro i hi
      rw [List.mem_map] at hi
      obtain ⟨-, -, rfl⟩ := hi
      exact Bool.false_ne_true
    rw [List.filter_append, List.filter_append, hfresh]
    exact List.append_nil _
  have hnodup := hrun.nodup (IdSupply.sound_ofSeed seed) (IdSupply.injectiveOn_ofSeed _ seed)
    (hset ▸ hresult) (fun _ _ _ => trivial)
  have hperm : (accuInit.slots ++ result'.slots ++ [null, range, condition, step, id]).Perm
      (slots ⟨id, .comprehension ⟨name, ⟨range, .list ⟨[⟨null, .constant .null⟩], .empty⟩⟩, name,
        accuInit, ⟨condition, .constant (.bool false)⟩, ⟨step, .ident ⟨name⟩⟩, result'⟩⟩) := by
    rw [List.perm_iff_count]
    intro i
    simp only [slots_mk, Kind.entryIds, Kind.children, List.flatMap_cons, List.flatMap_nil,
      List.count_append, List.count_cons, List.count_nil]
    omega
  exact (hperm.nodup_iff.1 hnodup).filter _

lemma bindDonor_root (h : Ends (bindDonor budget host name init result populate) s donor t) :
    ∃ t', Ends (bindComprehension budget name init result) s donor.root t' := by
  unfold bindDonor at h
  rw [ends_bind] at h
  obtain ⟨bound, t', hbound, hsource⟩ := h
  have hroot : donor.root = bound := by
    cases populate <;>
    · simp only [Bool.false_eq_true, if_false, if_true, ends_bind, ends_pure] at hsource
      obtain ⟨source, t'', -, rfl, -⟩ := hsource
      rfl
  exact ⟨t', hroot ▸ hbound⟩

/-- Binding a variable is a replacement by a donor of its own. -/
theorem replaceByBind_cases {target : NodeId} {w : Workspace} (hresult : result.DistinctIds)
    (h : replaceByBind budget host name init result target populate = .ok w) :
    ∃ donor, donor.root.DistinctIds ∧ replaceBy budget host donor target = .ok w := by
  unfold replaceByBind at h
  rw [except_bind_eq_ok] at h
  obtain ⟨donor, hdonor, hreplace⟩ := h
  obtain ⟨t, hdonor⟩ := (run'_eq_ok ..).1 hdonor
  obtain ⟨t', hbound⟩ := bindDonor_root hdonor
  exact ⟨donor, distinct_of_bindComprehension hresult hbound, hreplace⟩

/-- The comprehension has a new id, so it cannot be there already: it is grafted. -/
theorem exists_graft_of_bind {target : NodeId} {w : Workspace} (hhost : host.root.DistinctIds)
    (hresult : result.DistinctIds)
    (h : replaceByBind budget host name init result target populate = .ok w) :
    ∃ seed donor t, Ends (bindDonor budget host name init result populate) (.ofSeed seed) donor t ∧
      donor.root.DistinctIds ∧
      ∃ seed' stable p s t', DistinctGraft seed' host donor stable target p w s t' := by
  unfold replaceByBind at h
  rw [except_bind_eq_ok] at h
  obtain ⟨donor, hdonor, hreplace⟩ := h
  obtain ⟨t, hdonor⟩ := (run'_eq_ok ..).1 hdonor
  obtain ⟨t', hbound⟩ := bindDonor_root hdonor
  have hdistinct := distinct_of_bindComprehension hresult hbound
  refine ⟨_, donor, t, hdonor, hdistinct, ?_⟩
  refine (adopted_or_distinctGraft hhost hdistinct hreplace).resolve_left fun hadopted => ?_
  obtain ⟨accuInit, result', null, range, condition, step, id, hroot, -, -, hthread⟩ :=
    bindComprehension_cases hbound
  have hrun : IdSupply.Exchanges (fun _ => True) (.ofSeed _) _ _ t' := .of_thread hthread
  have hlt := (hrun.bounds (IdSupply.sound_ofSeed _) (j := donor.root.id) (by simp [hroot])).1
  have hseed := (NodeId.le_largest init.maxId [host.maxId]).2 _ (List.mem_singleton_self _)
  have hle := toNat_le_maxId_of_root (id_mem_slots (mem_of_find? hadopted.found).1)
  omega

end CelEdit.Workspace
