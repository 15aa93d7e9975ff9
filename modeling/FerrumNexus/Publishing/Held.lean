import FerrumNexus.Publishing.Conversion

/-!
# What a conversion owns

A conversion holds the key of one proxy. It owns the proxy on the gateway, the
configs and specifications scoped to it, and its own journal in memory; the
staged rebuild in the journal is left out of the view, since no step takes more
from it than a check. Others are free elsewhere, also in the rows of the API,
as long as plugin config ids stay unique. While the public path is served
nothing of the proxy changes, and a write that starts to serve it leaves every
hand-owned config on the proxy and named by it.
-/
namespace FerrumNexus.Publishing

open Saga Platform

/-- What the gateway holds for one proxy. -/
structure Held (J : Type) where
  proxy : Option (Proxy J)
  configs : List (PluginConfig J)
  specs : List (ApiSpec J)

/-- The parts of a journal that decide what a rebuild builds. -/
structure JournalView (J : Type) where
  proxy : Proxy J
  plugins : List (PluginConfig J)
  mutations : List (Mutation J)

structure OwnView (J : Type) where
  held : Held J
  journal : Option (JournalView J)
  rollbacks : ℕ

/-- The key a conversion holds: its proxy and slot, the public path, and the
hand-owned configs it found. -/
structure Custody (J : Type) where
  proxyId : ℕ
  slot : ℕ
  path : ListenPath
  configs : List (PluginConfig J)

section Views

variable {J : Type}

def Edge.held (e : Edge J) (proxyId : ℕ) : Held J :=
  ⟨e.proxies proxyId, e.listByProxy proxyId, e.specs.filter (·.proxyId == proxyId)⟩

def ConversionRecovery.view (recovery : ConversionRecovery J) : JournalView J :=
  ⟨recovery.proxy, recovery.plugins, recovery.mutations⟩

def ownView (proxyId slot : ℕ) (s : PublishingState J) : OwnView J :=
  ⟨s.edge.held proxyId, (s.memory slot).map (·.view), s.rollbacks⟩

/-- Nothing is left of the proxy. -/
def Held.gone : Held J := ⟨none, [], []⟩

def Held.Serves (path : ListenPath) (held : Held J) : Prop :=
  ∃ proxy, held.proxy = some proxy ∧ proxy.body.listenPath = path

/-- The hand-owned configs are exactly `configs`, and the proxy names them all. -/
def Held.Covered (configs : List (PluginConfig J)) (held : Held J) : Prop :=
  handOwnedPlugins held.configs = configs ∧
    ∃ proxy, held.proxy = some proxy ∧ ∀ config ∈ configs, config.id ∈ proxy.plugins

/-- The moves of a conversion: the public path is served unchanged before the
removal, and covered again from the cutover on. -/
def Held.Step (path : ListenPath) (configs : List (PluginConfig J)) (h h' : Held J) : Prop :=
  (h.Serves path → h'.Serves path → h' = h) ∧
    (¬ h.Serves path → h'.Serves path → h'.Covered configs)

theorem Held.Step.refl {path : ListenPath} {configs : List (PluginConfig J)} (h : Held J) :
    Held.Step path configs h h :=
  ⟨fun _ _ => rfl, fun hn hs => absurd hs hn⟩

theorem Held.Step.of_unserved {path : ListenPath} {configs : List (PluginConfig J)} {h h' : Held J}
    (hn : ¬ h'.Serves path) : Held.Step path configs h h' :=
  ⟨fun _ hs => absurd hs hn, fun _ hs => absurd hs hn⟩

theorem Held.not_serves_gone (path : ListenPath) : ¬ (Held.gone : Held J).Serves path := by
  rintro ⟨proxy, hproxy, -⟩
  cases hproxy

/-- What the request in `slot` owns while it converts a proxy, and how its
actions may move it. -/
def Custody.scope (k : Custody J) : Scope (PublishingState J) (OwnView J) where
  view := ownView k.proxyId k.slot
  sound s := (s.edge.configs.map (·.id)).Nodup
  moves v v' := Held.Step k.path k.configs v.held v'.held
  moves_refl _ := Held.Step.refl _

end Views

section Writes

variable {J : Type} {e e' : Edge J} {proxyId : ℕ}

@[simp] theorem Edge.held_touch (e : Edge J) (proxyId : ℕ) : e.touch.held proxyId = e.held proxyId :=
  rfl

@[simp] theorem Edge.touch_configs (e : Edge J) : e.touch.configs = e.configs := rfl

@[simp] theorem Edge.putProxy_configs (id : ℕ) (proxy : Option (Proxy J)) (e : Edge J) :
    (Edge.putProxy id proxy e).configs = e.configs := rfl

@[simp] theorem Edge.held_putProxy (id : ℕ) (proxy : Option (Proxy J)) (e : Edge J) :
    (Edge.putProxy id proxy e).held id = { e.held id with proxy := proxy } := by
  simp [Edge.held, Edge.putProxy, Edge.listByProxy]

theorem Edge.proxies_of_held {held : Held J} {proxy : Option (Proxy J)}
    (h : e.held proxyId = held) (hproxy : held.proxy = proxy) : e.proxies proxyId = proxy :=
  (congrArg Held.proxy h).trans hproxy

theorem ifMatch_ok {α : Type} {etag : ℕ} {f : Edge J → Except NexusError (α × Edge J)} {a : α}
    (h : Edge.ifMatch etag f e = .ok (a, e')) : f e = .ok (a, e') := by
  unfold Edge.ifMatch at h
  split at h
  · exact h
  · contradiction

theorem removeProxy_ok (hids : (e.configs.map (·.id)).Nodup)
    (h : Edge.removeProxy proxyId e = .ok ((), e')) :
    (e'.configs.map (·.id)).Nodup ∧ e'.held proxyId = .gone := by
  unfold Edge.removeProxy at h
  split at h
  · contradiction
  · cases h
    refine ⟨?_, ?_⟩
    · exact hids.sublist (List.filter_sublist.map _)
    · simp only [Edge.held_touch, Edge.held_putProxy]
      simp [Edge.held, Edge.listByProxy, Held.gone]

theorem createProxy_ok {body : ProxyBody J} (hid : body.id = proxyId)
    (h : Edge.createProxy body e = .ok ((), e')) :
    e'.configs = e.configs ∧
      e'.held proxyId = { e.held proxyId with proxy := some ⟨body, [], none⟩ } := by
  unfold Edge.createProxy at h
  split at h
  · contradiction
  · cases h
    subst hid
    exact ⟨rfl, by simp⟩

theorem replaceProxy_ok {body : ProxyBody J} {plugins : List ℕ} {proxy : Proxy J}
    (hproxy : (e.held proxyId).proxy = some proxy)
    (h : Edge.replaceProxy proxyId body plugins e = .ok ((), e')) :
    e'.configs = e.configs ∧
      e'.held proxyId = { e.held proxyId with proxy := some ⟨body, plugins, proxy.apiSpecId⟩ } := by
  have hfound : e.proxies proxyId = some proxy := hproxy
  rw [Edge.replaceProxy, hfound] at h
  cases h
  exact ⟨rfl, by simp⟩

theorem createConfig_ok {config : PluginConfig J} (hids : (e.configs.map (·.id)).Nodup)
    (hid : config.proxyId = proxyId) (h : Edge.createConfig config e = .ok ((), e')) :
    (e'.configs.map (·.id)).Nodup ∧
      e'.held proxyId = { e.held proxyId with configs := (e.held proxyId).configs ++ [config] } := by
  unfold Edge.createConfig at h
  split at h
  · contradiction
  · split at h
    · contradiction
    · rename_i htaken
      cases h
      refine ⟨?_, ?_⟩
      · simp only [Edge.touch_configs, List.map_append, List.map_cons, List.map_nil]
        refine List.nodup_append.mpr ⟨hids, by simp, ?_⟩
        intro id hmem _ hlast heq
        simp only [List.mem_singleton] at hlast
        obtain ⟨taken, htakenMem, rfl⟩ := List.mem_map.mp hmem
        exact htaken (List.any_eq_true.mpr ⟨taken, htakenMem, by simpa [hlast] using heq⟩)
      · simp [Edge.held, Edge.touch, Edge.listByProxy, hid]

theorem handOwnedPlugins_generated (importer : SubmittedSpec J → List (PluginConfig J))
    (submitted : SubmittedSpec J) (proxyId specId : ℕ) :
    handOwnedPlugins (Edge.generated importer submitted proxyId specId) = [] := by
  refine List.filter_eq_nil_iff.mpr ?_
  intro config hconfig
  obtain ⟨source, -, rfl⟩ := List.mem_map.mp hconfig
  simp [PluginConfig.handOwned]

theorem listByProxy_generated (importer : SubmittedSpec J → List (PluginConfig J))
    (submitted : SubmittedSpec J) (proxyId specId : ℕ) :
    (Edge.generated importer submitted proxyId specId).filter (·.proxyId == proxyId) =
      Edge.generated importer submitted proxyId specId := by
  refine List.filter_eq_self.mpr ?_
  intro config hconfig
  obtain ⟨source, -, rfl⟩ := List.mem_map.mp hconfig
  simp

/-- An import makes the proxy anew, owned by a specification, and no
hand-owned config. -/
theorem importSpec_ok {importer : SubmittedSpec J → List (PluginConfig J)}
    {submitted : SubmittedSpec J} {ref : ℕ × ℕ} (hid : submitted.proxy.id = proxyId)
    (h : Edge.importSpec importer submitted e = .ok (ref, e')) :
    (e'.configs.map (·.id)).Nodup ∧
      handOwnedPlugins (e'.held proxyId).configs = handOwnedPlugins (e.held proxyId).configs ∧
      ∃ plugins, (e'.held proxyId).proxy = some ⟨submitted.proxy, plugins, some ref.2⟩ := by
  unfold Edge.importSpec at h
  simp only at h
  split at h
  · contradiction
  · split at h
    · contradiction
    · rename_i hnodup
      cases h
      subst hid
      refine ⟨not_not.mp hnodup, ?_, ?_⟩
      · simp only [Edge.held_touch, Edge.held_putProxy]
        simp only [Edge.held, Edge.listByProxy, List.filter_append, listByProxy_generated]
        simp only [handOwnedPlugins, List.filter_append]
        have hnone := handOwnedPlugins_generated importer submitted submitted.proxy.id e.fresh
        simp only [handOwnedPlugins] at hnone
        rw [hnone, List.append_nil]
      · exact ⟨_, by rw [Edge.held_touch, Edge.held_putProxy]⟩

theorem handOwned_ne_spec {config : PluginConfig J} (h : config.handOwned = true) (specId : ℕ) :
    (config.apiSpecId != some specId) = true := by
  simp only [PluginConfig.handOwned, Bool.and_eq_true, beq_iff_eq] at h
  simp [h.1]

/-- A second import re-inserts the proxy, and leaves the hand-owned configs
and their associations alone. -/
theorem reimportSpec_ok {importer : SubmittedSpec J → List (PluginConfig J)} {specId : ℕ}
    {submitted : SubmittedSpec J} {proxy : Proxy J} (hids : (e.configs.map (·.id)).Nodup)
    (hid : submitted.proxy.id = proxyId) (hproxy : (e.held proxyId).proxy = some proxy)
    (h : Edge.reimportSpec importer specId submitted e = .ok ((), e')) :
    (e'.configs.map (·.id)).Nodup ∧
      handOwnedPlugins (e'.held proxyId).configs = handOwnedPlugins (e.held proxyId).configs ∧
      ∃ plugins, (e'.held proxyId).proxy = some ⟨submitted.proxy, plugins, some specId⟩ ∧
        ∀ config ∈ handOwnedPlugins (e.held proxyId).configs, config.id ∈ proxy.plugins →
          config.id ∈ plugins := by
  have hfound : e.proxies proxyId = some proxy := hproxy
  unfold Edge.reimportSpec at h
  split at h
  · contradiction
  · rename_i spec _
    split at h
    · contradiction
    · rename_i owner howner
      simp only at h
      split at h
      · contradiction
      · rename_i hplace
        split at h
        · contradiction
        · rename_i hnodup
          have hspec : spec.proxyId = proxyId := (not_not.mp hplace).symm.trans hid
          rw [hspec] at howner h hnodup
          rw [hfound] at howner
          cases howner
          cases h
          refine ⟨not_not.mp hnodup, ?_, ?_⟩
          · simp only [Edge.held_touch, Edge.held_putProxy]
            simp only [Edge.held, Edge.listByProxy, List.filter_append, listByProxy_generated]
            simp only [handOwnedPlugins, List.filter_append]
            have hnone := handOwnedPlugins_generated importer submitted proxyId specId
            simp only [handOwnedPlugins] at hnone
            rw [hnone, List.append_nil, List.filter_filter, List.filter_filter, List.filter_filter]
            refine List.filter_congr ?_
            intro config _
            cases hown : config.handOwned with
            | false => simp
            | true => simp [handOwned_ne_spec hown]
          · refine ⟨_, by rw [Edge.held_touch, Edge.held_putProxy], ?_⟩
            intro config hconfig hnamed
            refine List.mem_append_left _ (List.mem_filter.mpr ⟨hnamed, ?_⟩)
            obtain ⟨hheld, hown⟩ := List.mem_filter.mp hconfig
            have hmem : config ∈ e.configs := (List.mem_filter.mp hheld).1
            -- Ids are unique, so no config of the specification shares this one.
            simp only [Bool.not_eq_true', List.contains_eq_mem, decide_eq_false_iff_not,
              List.mem_map, not_exists, not_and]
            intro dropped hdropped heq
            obtain ⟨hdroppedMem, howned⟩ := List.mem_filter.mp hdropped
            have hsame : dropped = config := List.inj_on_of_nodup_map hids hdroppedMem hmem heq
            subst hsame
            exact absurd howned (by simpa using handOwned_ne_spec hown specId)

end Writes

end FerrumNexus.Publishing
