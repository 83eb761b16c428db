import RanetLite.Client.Exit
import RanetLite.Theorems.Speaker

/-!
# What an exit announces is what it can carry

While a reload is held to the check a startup makes, and a republication reads what the translator published only while no other stands
between that and the speaker, an exit at rest originates a prefix of its capability only when the last pass of the translator found its
family forwarding with every rule in place (`exit_withholds`). Neither condition is the code's: `exit_announces_dark`.
-/

namespace RanetLite.Client

open Netip Babel Translator

namespace ExitAux

variable {p : Prefix} {egress : Egress}

/-- The announcements of a list take a prefix. -/
def Names (announce : List Announce) (p : Prefix) : Prop :=
  ∃ r ∈ announce, ∃ key, originatedKey r.destination r.source = some key ∧ key.dest = p

theorem originatedKey_dest {dest source : Prefix} {key : RouteKey} (h : originatedKey dest source = some key) :
    key.dest = dest.masked := by
  unfold originatedKey at h
  split_ifs at h <;> exact (Option.some.inj h) ▸ rfl

/-- What is originated is what is named. -/
theorem originates_iff {speaker : Speaker} {announce : List Announce} {p : Prefix} :
    (∃ key ∈ (speaker.setOriginated announce).originate, key.dest = p) ↔ Names announce p := by
  constructor
  · rintro ⟨key, hkey, hdest⟩
    obtain ⟨r, hr, heq⟩ := OpAux.mem_wantedKeys.mp ((OpAux.mem_setOriginated _ _ _).mp hkey)
    exact ⟨r, hr, key, heq, hdest⟩
  · rintro ⟨r, hr, key, heq, hdest⟩
    exact ⟨key, (OpAux.mem_setOriginated _ _ _).mpr (OpAux.mem_wantedKeys.mpr ⟨r, hr, heq⟩), hdest⟩

/-- A startup's speaker originates what the configuration announces. -/
theorem new_originates {cfg : Config} {routes : Routes} {rt drawn : Babel.Runtime} {damp : Damping} {speaker : Speaker}
    (h : Speaker.new cfg routes rt drawn damp = .ok speaker) :
    (∃ key ∈ speaker.originate, key.dest = p) ↔ Names routes.announce p := by
  obtain ⟨rt', -, rfl⟩ := OpAux.new_ok h
  exact originates_iff

/-- The announcements of a configuration name nothing the capability lists. -/
def Clean (egress : Egress) (announce : List Announce) : Prop := ∀ p ∈ egress.advertise, ¬Names announce p

/-- An accepted configuration names no egress prefix. -/
theorem clean_of_refuse {cfg : ExitConfig} (h : cfg.refuseEgressAdvertisedUnconditionally = none)
    (hsame : ∀ p ∈ egress.advertise, p ∈ cfg.egress.advertise) : Clean egress cfg.announce := by
  rintro p hp ⟨r, hr, key, hkey, rfl⟩
  refine List.find?_eq_none.mp h _ (hsame _ hp) (List.any_eq_true.mpr ⟨r, hr, ?_⟩)
  exact decide_eq_true (originatedKey_dest hkey).symm

theorem masked_of_validate (h : egress.validate = none) (hp : p ∈ egress.advertise) : p.masked = p := by
  rw [Egress.validate, if_neg (List.ne_nil_of_mem hp)] at h
  have hcheck := List.findSome?_eq_none_iff.mp (Option.or_eq_none_iff.mp h).1 p hp
  unfold checkPrefix at hcheck
  split_ifs at hcheck with h1 h2
  exact not_not.mp h2

/-- Only what is advertised is announced. -/
theorem announceable_subset {rt : Translator.Runtime} {print : Printer} {host : Host} (h : p ∈ announceable egress rt print host) :
    p ∈ egress.advertise := List.mem_of_mem_filter h

section
variable {egress : Egress} {rt : Translator.Runtime} {print : Printer} {s : Exit}

/-- Of what the capability lists, the announcements name only what the translator published. -/
def Bounded (egress : Egress) (s : Exit) (announce : List Announce) : Prop :=
  ∀ p ∈ egress.advertise, Names announce p → p ∈ s.published.getD []

/-- The translator has yet to read what it published. -/
def Pending (s : Exit) : Prop := ∃ r, s.own = some r ∧ r.holding = false

/-- What holds of an exit between two steps. Every republication that is past its read agrees with what the translator published last,
and so does the speaker when none is, unless the translator's own republication has still to read it. -/
structure Withholds (egress : Egress) (rt : Translator.Runtime) (print : Printer) (s : Exit) : Prop where
  listed : ∀ p ∈ egress.advertise, p ∈ s.config.egress.advertise
  config : Clean egress s.config.announce
  bases : ∀ announce, .configured announce ∈ s.running → Clean egress announce
  published : ∀ p ∈ s.published.getD [], ∃ host, s.last = some host ∧ p ∈ announceable egress rt print host
  held : Pending s ∨ ∀ announce, .collected announce ∈ s.running → Bounded egress s announce
  said : Pending s ∨ (∃ r ∈ s.running, r.holding = true) ∨ ∀ p ∈ egress.advertise, s.originates p → p ∈ s.published.getD []

theorem bounded_announced (hvalid : egress.validate = none) {announce : List Announce}
    (hpublished : ∀ p ∈ s.published.getD [], ∃ host, s.last = some host ∧ p ∈ announceable egress rt print host)
    (hclean : Clean egress announce) : Bounded egress s (s.announced announce) := by
  rintro p hp ⟨r, hr, key, hkey, hdest⟩
  rcases List.mem_append.mp hr with hr | hr
  · exact absurd ⟨r, hr, key, hkey, hdest⟩ (hclean p hp)
  · obtain ⟨q, hq, rfl⟩ := List.mem_map.mp hr
    obtain ⟨host, -, hhost⟩ := hpublished q hq
    have hqp : p = q := hdest.symm.trans ((originatedKey_dest hkey).trans (masked_of_validate hvalid (announceable_subset hhost)))
    exact hqp ▸ hq

/-- A publication that changes nothing leaves the exit as it was, and one that does calls the translator's republication. -/
theorem withholds_publish {s : Exit} {prefixes : List Prefix} (h : Withholds egress rt print s) {last : Option Host}
    (hown : s.own = none) (hprefixes : ∀ p ∈ prefixes, ∃ host, last = some host ∧ p ∈ announceable egress rt print host) :
    Withholds egress rt print ({ s with last := last }.publish prefixes) := by
  unfold Exit.publish
  split_ifs with hsame
  · have hpublished : s.published.getD [] = prefixes := congrArg (Option.getD · []) hsame
    exact ⟨h.listed, h.config, h.bases, fun p hp => hprefixes p (hpublished ▸ hp), h.held, h.said⟩
  · have hpending : Pending { s with last := last, published := some prefixes, own := some .called } := ⟨.called, rfl, rfl⟩
    refine ⟨h.listed, h.config, fun announce hmem => ?_, hprefixes, .inl hpending, .inl hpending⟩
    refine h.bases announce ?_
    rw [Exit.running, hown]
    exact (List.mem_cons.mp hmem).resolve_left (by simp)

theorem mem_running {r : Republication} : r ∈ s.running ↔ s.own = some r ∨ r ∈ s.reloads := by
  rw [Exit.running, List.mem_append, Option.mem_toList]

theorem not_pending_of_collected {announce : List Announce} (hown : s.own = some (.collected announce)) : ¬Pending s := by
  rintro ⟨r, hr, hholding⟩
  rw [Option.some.inj (hr.symm.trans hown)] at hholding
  exact absurd hholding (by simp [Republication.holding])

/-- Each step keeps the withholding. -/
theorem withholds_step (hvalid : egress.validate = none) {s' : Exit} (h : Withholds egress rt print s)
    (hstep : Exit.Step egress rt print (fun next => next.refuseEgressAdvertisedUnconditionally = none) true s s') :
    Withholds egress rt print s' := by
  cases hstep with
  | pass hown host => exact withholds_publish h hown fun p hp => ⟨host, rfl, hp⟩
  | stop hown => exact @withholds_publish egress rt print s [] h s.last hown (by simp)
  | configure hown =>
    have hpending : Pending { s with own := some (.configured s.config.announce) } := ⟨_, rfl, rfl⟩
    refine { h with bases := fun announce hmem => ?_, held := .inl hpending, said := .inl hpending }
    rcases mem_running.mp hmem with heq | hmem
    · cases heq
      exact h.config
    · exact h.bases announce (mem_running.mpr (.inr hmem))
  | @collect announce hown halone =>
    refine { h with bases := fun announce' hmem => ?_, held := .inr fun announce' hmem => ?_, said := ?_ }
    · rcases mem_running.mp hmem with heq | hmem
      · exact absurd heq (by simp)
      · exact h.bases announce' (mem_running.mpr (.inr hmem))
    · rcases mem_running.mp hmem with heq | hmem
      · cases heq
        exact bounded_announced hvalid h.published (h.bases announce (mem_running.mpr (.inl hown)))
      · exact absurd (halone rfl _ (mem_running.mpr (.inr hmem))) (by simp [Republication.holding])
    · exact .inr (.inl ⟨_, mem_running.mpr (.inl rfl), rfl⟩)
  | @hand announce hown =>
    have hheld := h.held.resolve_left (not_pending_of_collected hown)
    refine { h with bases := fun announce' hmem => ?_, held := .inr fun announce' hmem => ?_, said := .inr (.inr ?_) }
    · exact h.bases announce' (mem_running.mpr (.inr ((mem_running.mp hmem).resolve_left (by simp))))
    · exact hheld announce' (mem_running.mpr (.inr ((mem_running.mp hmem).resolve_left (by simp))))
    · exact fun p hp horiginates => hheld announce (mem_running.mpr (.inl hown)) p hp (originates_iff.mp horiginates)
  | @reload next hreloadable hchecked =>
    have hsame : ∀ p, p ∈ s.config.egress.advertise → p ∈ next.egress.advertise := by
      simp only [ExitConfig.reloadable, ExitConfig.sameEgress, decide_eq_true_eq] at hreloadable
      exact fun p => (List.isPerm_iff.mp hreloadable.2.2.1).mem_iff.mp
    have hlisted : ∀ p ∈ egress.advertise, p ∈ next.egress.advertise := fun p hp => hsame p (h.listed p hp)
    have hclean : Clean egress next.announce := clean_of_refuse hchecked hlisted
    have hrunning : ∀ r, r ∈ ({ s with config := next, reloads := .configured next.announce :: s.reloads } : Exit).running ↔
        r = .configured next.announce ∨ r ∈ s.running := fun r => by
      simp only [mem_running, List.mem_cons]
      tauto
    refine ⟨hlisted, hclean, fun announce hmem => ?_, h.published, h.held.imp_right fun hheld announce hmem => ?_,
      h.said.imp_right (.imp_left fun ⟨r, hr, hholding⟩ => ⟨r, (hrunning r).mpr (.inr hr), hholding⟩)⟩
    · rcases (hrunning _).mp hmem with heq | hmem
      · cases heq
        exact hclean
      · exact h.bases announce hmem
    · exact hheld announce (((hrunning _).mp hmem).resolve_left (by simp))
  | @reloadCollect before after announce hreloads halone =>
    have hrunning : ∀ r, r ∈ ({ s with reloads := before ++ .collected (s.announced announce) :: after } : Exit).running →
        r = .collected (s.announced announce) ∨ r ∈ s.running := fun r => by
      simp only [mem_running, hreloads, List.mem_append, List.mem_cons]
      tauto
    refine { h with bases := fun announce' hmem => ?_, held := h.held.imp_right fun hheld announce' hmem => ?_, said := ?_ }
    · exact h.bases announce' ((hrunning _ hmem).resolve_left (by simp))
    · rcases hrunning _ hmem with heq | hmem
      · cases heq
        exact bounded_announced hvalid h.published (h.bases announce (mem_running.mpr (.inr (hreloads ▸ by simp))))
      · exact hheld announce' hmem
    · exact .inr (.inl ⟨.collected (s.announced announce), mem_running.mpr (.inr (by simp)), rfl⟩)
  | @reloadHand before after announce hreloads =>
    have hrunning : ∀ r, r ∈ ({ s with speaker := s.speaker.setOriginated announce, reloads := before ++ after } : Exit).running →
        r ∈ s.running := fun r => by
      simp only [mem_running, hreloads, List.mem_append, List.mem_cons]
      tauto
    refine { h with bases := fun announce' hmem => h.bases announce' (hrunning _ hmem)
                    held := h.held.imp_right fun hheld announce' hmem => hheld announce' (hrunning _ hmem)
                    said := h.held.imp_right fun hheld => .inr fun p hp horiginates => ?_ }
    exact hheld announce (mem_running.mpr (.inr (hreloads ▸ by simp))) p hp (originates_iff.mp horiginates)
  | @speak speaker horiginate =>
    refine { h with said := h.said.imp_right (.imp_right fun hsaid p hp horiginates => hsaid p hp ?_) }
    rwa [Exit.originates, ← horiginate]

end

end ExitAux

open ExitAux

/-- Where every configuration reloaded passes the check a startup makes between the two blocks, and no republication reads what the
translator published while another stands between its read and the speaker: in every state a startup can reach, with no republication
in progress, a prefix of the capability is originated only if the translator's last pass found its family forwarding and the host
holding every rule of the family. -/
theorem exit_withholds {cfg : ExitConfig} (hstart : cfg.startable = true) {bcfg : Config} {routes : Routes}
    {brt drawn : Babel.Runtime} {damp : Damping} {speaker : Speaker} (hroutes : routes.announce = cfg.announce)
    (hnew : Speaker.new bcfg routes brt drawn damp = .ok speaker) {rt : Translator.Runtime} {print : Printer} {s : Exit}
    (hrun : Relation.ReflTransGen
      (Exit.Step cfg.egress rt print (fun next => next.refuseEgressAdvertisedUnconditionally = none) true)
      { config := cfg, speaker := speaker } s)
    (hquiet : s.quiet) :
    ∀ p ∈ cfg.egress.advertise, s.originates p →
      ∃ host, s.last = some host ∧ host.forwards (addressFamily p.addr) = true ∧
        ∀ rule ∈ desired cfg.egress rt, rule.family = addressFamily p.addr →
          rule.text print ∈ host.held print (desired cfg.egress rt) := by
  simp only [ExitConfig.startable, decide_eq_true_eq, Option.isNone_iff_eq_none] at hstart
  have hclean : Clean cfg.egress cfg.announce := clean_of_refuse hstart.2.2 fun _ hp => hp
  have hinit : Withholds cfg.egress rt print { config := cfg, speaker := speaker } :=
    { listed := fun _ hp => hp
      config := hclean
      bases := by simp [Exit.running]
      published := by simp
      held := .inr (by simp [Exit.running])
      said := .inr (.inr fun p hp horiginates =>
        absurd (hroutes ▸ (new_originates hnew).mp horiginates) (hclean p hp)) }
  have h : Withholds cfg.egress rt print s := by
    clear hquiet
    induction hrun with
    | refl => exact hinit
    | tail _ hstep ih => exact withholds_step hstart.1 ih hstep
  intro p hp horiginates
  have hempty : s.running = [] := by rw [Exit.running, hquiet.1, hquiet.2]; rfl
  have hpending : ¬Pending s := fun ⟨r, hr, _⟩ => absurd (hquiet.1.symm.trans hr) (by simp)
  have hpublished := ((h.said.resolve_left hpending).resolve_left (by simp [hempty])) p hp horiginates
  obtain ⟨host, hlast, hhost⟩ := h.published p hpublished
  have hready := (List.mem_filter.mp hhost).2
  simp only [ready, decide_eq_true_eq, List.all_eq_true, ne_eq] at hready
  refine ⟨host, hlast, hready.2.1, fun rule hrule hfamily => ?_⟩
  exact (hready.2.2 rule hrule).resolve_left (not_not.mpr hfamily)

/-- An exit for everything over IPv4, with nothing announced beside it. -/
def wholeExit : ExitConfig := { announce := [], egress := { advertise := [prefixFrom (.v4 0) 0] } }

/-- The same exit with its prefix announced unconditionally as well. -/
def twiceExit : ExitConfig := { wholeExit with announce := [{ destination := prefixFrom (.v4 0) 0 }] }

/-- The interface of the mesh, without an address. -/
def bareRuntime : Translator.Runtime := ⟨"ranet0", []⟩

/-- A printer no rule of `wholeExit` asks. -/
def noPrinter : Printer := ⟨fun _ => "", fun _ => ""⟩

/-- A host that forwards and holds the rules of `wholeExit`. -/
def carryingHost : Host := { rules := ["out via ranet0 ipv4 masquerade"], forwards := fun _ => true }

/-- A host that holds them and does not forward. -/
def darkHost : Host := { carryingHost with forwards := fun _ => false }

namespace ExitAux

theorem announceable_carrying : announceable wholeExit.egress bareRuntime noPrinter carryingHost = [prefixFrom (.v4 0) 0] := by
  decide +kernel

theorem announceable_dark : announceable wholeExit.egress bareRuntime noPrinter darkHost = [] := by decide +kernel

theorem names_whole : Names [{ destination := prefixFrom (.v4 0) 0 }] (prefixFrom (.v4 0) 0) :=
  ⟨_, List.mem_singleton_self _, ⟨.none, prefixFrom (.v4 0) 0⟩, by decide +kernel, rfl⟩

theorem names_announced {s : Exit} {announce : List Announce} (h : s.published = some [prefixFrom (.v4 0) 0]) :
    Names (s.announced announce) (prefixFrom (.v4 0) 0) := by
  obtain ⟨r, hr, hkey⟩ := names_whole
  exact ⟨r, List.mem_append_right _ (by rw [h]; exact hr), hkey⟩

section
variable {checked : ExitConfig → Prop} {alone : Bool}

/-- A pass that publishes something new, with its republication, while no reload is under way past its read. -/
theorem republished {s : Exit} {host : Host} {prefixes : List Prefix}
    (hprefixes : announceable wholeExit.egress bareRuntime noPrinter host = prefixes) (hown : s.own = none)
    (hnew : s.published ≠ some prefixes) (halone : alone = true → ∀ r ∈ s.reloads, r.holding = false) :
    Relation.ReflTransGen (Exit.Step wholeExit.egress bareRuntime noPrinter checked alone) s
      { s with last := some host, published := some prefixes,
               speaker := s.speaker.setOriginated (s.config.announce ++ prefixes.map fun p => { destination := p }) } := by
  have hpass : Exit.Step wholeExit.egress bareRuntime noPrinter checked alone s _ := .pass hown host
  rw [hprefixes, Exit.publish, if_neg hnew] at hpass
  refine .tail (.tail (.tail (.single hpass) (.configure rfl)) (.collect rfl ?_)) ?_
  · intro h r hr
    rcases mem_running.mp hr with heq | hr
    · cases heq
      rfl
    · exact halone h r hr
  · obtain ⟨config, speaker, published, last, own, reloads⟩ := s
    cases hown
    exact .hand rfl

/-- A reload up to its read, while nothing else is under way. -/
theorem reloadRead {s : Exit} {next : ExitConfig} (hload : s.config.reloadable next = true) (hchecked : checked next)
    (hquiet : s.quiet) : Relation.ReflTransGen (Exit.Step wholeExit.egress bareRuntime noPrinter checked alone) s
      { s with config := next, reloads := [.collected (s.announced next.announce)] } := by
  obtain ⟨config, speaker, published, last, own, reloads⟩ := s
  obtain ⟨hown, hreloads⟩ := hquiet
  cases hown
  cases hreloads
  refine .tail (.single (.reload hload hchecked)) (@Exit.Step.reloadCollect _ _ _ _ _ _ [] [] _ rfl ?_)
  simp [Exit.running, Republication.holding]

/-- The rest of the only reload under way. -/
theorem reloadHanded {s : Exit} {announce : List Announce} (hreloads : s.reloads = [.collected announce]) :
    Exit.Step wholeExit.egress bareRuntime noPrinter checked alone s
      { s with speaker := s.speaker.setOriginated announce, reloads := [] } :=
  @Exit.Step.reloadHand _ _ _ _ _ _ [] [] _ hreloads

end

end ExitAux

/-- The condition holds of an exit whose first pass finds the host carrying: it originates the prefix, and may. -/
theorem exit_withholds_carrying :
    ∃ s, Relation.ReflTransGen (Exit.Step wholeExit.egress bareRuntime noPrinter
        (fun next => next.refuseEgressAdvertisedUnconditionally = none) true) { config := wholeExit, speaker := plainSpeaker } s ∧
      s.quiet ∧ s.originates (prefixFrom (.v4 0) 0) ∧ ∃ host, s.last = some host ∧ host.forwards .ipv4 = true := by
  have hrun := @republished (fun next => next.refuseEgressAdvertisedUnconditionally = none) true
    { config := wholeExit, speaker := plainSpeaker } carryingHost _ announceable_carrying rfl (by simp) (by simp)
  have horiginates := @originates_iff plainSpeaker [{ destination := prefixFrom (.v4 0) 0 }] (prefixFrom (.v4 0) 0)
  obtain ⟨host, hlast, hforwards, -⟩ := exit_withholds (by decide +kernel) rfl plainSpeaker_new hrun ⟨rfl, rfl⟩
    (prefixFrom (.v4 0) 0) (List.mem_singleton_self _) (horiginates.mpr names_whole)
  exact ⟨_, hrun, ⟨rfl, rfl⟩, horiginates.mpr names_whole, host, hlast, hforwards⟩

/-- In the runs of the code an exit at rest originates its prefix after a pass that found the host not forwarding. First a reload adds
the prefix to the unconditional announcements. In the second run, every configuration is the one of the startup: a reload reads
what the translator published, a pass that found the host dark withdraws it, and the reload then hands what it read to the speaker. -/
theorem exit_announces_dark :
    wholeExit.startable = true ∧ Speaker.new {} {} ⟨1, .v6 0xfe800000000000000000000000000001 "", 0⟩ {}
      (fun _ smoothed _ _ => smoothed) = .ok plainSpeaker ∧
    (∃ s, Relation.ReflTransGen (Exit.Step wholeExit.egress bareRuntime noPrinter (fun _ => True) true)
        { config := wholeExit, speaker := plainSpeaker } s ∧
      s.quiet ∧ s.last = some darkHost ∧ s.originates (prefixFrom (.v4 0) 0)) ∧
    (∃ s, Relation.ReflTransGen (Exit.Step wholeExit.egress bareRuntime noPrinter (fun next => next = wholeExit) false)
        { config := wholeExit, speaker := plainSpeaker } s ∧
      s.quiet ∧ s.last = some darkHost ∧ s.originates (prefixFrom (.v4 0) 0)) := by
  refine ⟨by decide +kernel, plainSpeaker_new, ?_, ?_⟩
  · have hload : wholeExit.reloadable twiceExit = true := by decide +kernel
    have hread := @reloadRead (fun _ => True) true { config := wholeExit, speaker := plainSpeaker } _ hload trivial ⟨rfl, rfl⟩
    have hrun := (hread.tail (reloadHanded rfl)).trans (republished announceable_dark rfl (by simp) (by simp))
    exact ⟨_, hrun, ⟨rfl, rfl⟩, rfl, originates_iff.mpr names_whole⟩
  · have hload : wholeExit.reloadable wholeExit = true := by decide +kernel
    have hcarry := @republished (fun next => next = wholeExit) false
      { config := wholeExit, speaker := plainSpeaker } carryingHost _ announceable_carrying rfl (by simp) (by simp)
    have hread := hcarry.trans (reloadRead hload rfl ⟨rfl, rfl⟩)
    -- the reload stands between its read and the speaker while the dark pass withdraws the prefix
    obtain ⟨s, announce, hdark, hreloads, hown, hlast, hnames⟩ : ∃ s announce, Relation.ReflTransGen (Exit.Step wholeExit.egress
        bareRuntime noPrinter (fun next => next = wholeExit) false) { config := wholeExit, speaker := plainSpeaker } s ∧
        s.reloads = [.collected announce] ∧ s.own = none ∧ s.last = some darkHost ∧ Names announce (prefixFrom (.v4 0) 0) :=
      ⟨_, _, hread.trans (republished announceable_dark rfl (by simp) (by simp)), rfl, rfl, rfl, names_announced rfl⟩
    exact ⟨_, hdark.tail (reloadHanded hreloads), ⟨hown, rfl⟩, hlast, originates_iff.mpr hnames⟩

end RanetLite.Client
