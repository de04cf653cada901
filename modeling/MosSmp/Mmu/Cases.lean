import MosSmp.Mmu.Machine
import MosSmp.Pmap.Confine

/-!
The outcomes of a step, one constructor for each way through the code that
does not end in a panic. Every property of a step is proved by cases over these.
-/

namespace MosSmp

open Lib Function

namespace Mmu

variable {n : Nat} {s s' : Mmu n} {l : MmuLabel n}

theorem pdx_dstva {va : Word} (h : ¬ (va ≠ 0 ∧ isIllegalVa va = true)) : pdx va < pdx UTOP := by
  by_cases hz : va = 0
  · rw [hz]
    decide
  · exact pdx_lt_utop (by simpa using fun hva => h ⟨hz, hva⟩)

inductive MmuCase (s : Mmu n) : MmuLabel n → Mmu n → Prop
  /-- `sys_mem_alloc` without memory, or a page that is not mapped. -/
  | same (l : MmuLabel n) : MmuCase s l s
  | touch {c : CpuId} {d : Page n} {va : Word} {a : Asid} (hpc : (s.cpu c).pc = .rest)
      (ha : s.asidOf d = some a) (hva : va < ULIM) :
      MmuCase s (.touch c d va) ((s.flushLocal c a va).goto c (.refill ⟨d, a⟩ va))
  | memAlloc {c : CpuId} {d p : Page n} {va perm : Word} {a : Asid} {m : Pmap n}
      (hpc : (s.cpu c).pc = .rest) (ha : s.asidOf d = some a) (hva : pdx va < pdx UTOP)
      (halloc : s.pm.pageAlloc = .ok (p, m)) :
      MmuCase s (.memAlloc c d va perm) ((s.setPm m).goto c (.insert none ⟨d, a⟩ p va perm))
  | share {c : CpuId} {src dst pp : Page n} {srcva dstva perm : Word} {a b : Asid}
      {pte : EntryPtr n} (hpc : (s.cpu c).pc = .rest) (hb : s.asidOf src = some b)
      (ha : s.asidOf dst = some a) (hsrcva : pdx srcva < pdx UTOP) (hdstva : pdx dstva < pdx UTOP)
      (hlook : s.pm.pageLookup src srcva = some (some (pp, pte))) :
      MmuCase s (.share c src srcva dst dstva perm)
        (s.goto c (.insert (some (src, srcva)) ⟨dst, a⟩ pp dstva perm))
  | unmap {c : CpuId} {d : Page n} {va : Word} {a : Asid} {s' : Mmu n}
      (hpc : (s.cpu c).pc = .rest) (ha : s.asidOf d = some a) (hva : pdx va < pdx UTOP)
      (hremove : s.removeStep c ⟨d, a⟩ va .rest = some s') : MmuCase s (.unmap c d va) s'
  | envFree {c : CpuId} {d : Page n} {a : Asid} (hpc : (s.cpu c).pc = .rest)
      (ha : s.asidOf d = some a) : MmuCase s (.envFree c d) (s.goto c (.scan ⟨d, a⟩ 0))
  | setupVm {c : CpuId} {p : Page n} {m : Pmap n} (hpc : (s.cpu c).pc = .rest)
      (halloc : s.pm.pageAlloc = .ok (p, m)) :
      MmuCase s (.setupVm c) ({ s.setPm { m.incref p with
            mem := update m.mem p (newDirectory s.pm s.basePgdir p) } with
          dirs := update s.dirs p true
          own := update s.own p (s.own p + 1) }.goto c (.built p))
  | serve {c : CpuId} {o : Option (Page n)} {a : Asid} {va : Word} {next : MmuPc n}
      (hpoll : (s.cpu c).pc.polling = true)
      (hpc : (s.cpu (other c)).pc = .await o a va false next) :
      MmuCase s (.serve c)
        ((s.flushLocal c a va).goto (other c) (.await o a va true next))
  | evict {c : CpuId} {i : Nat} :
      MmuCase s (.evict c i) (s.upd c (fun x => { x with tlb := x.tlb.eraseIdx i }))
  | read {c : CpuId} {sp : Space n} {va : Word} {pp : Page n} {pte : EntryPtr n}
      (hpc : (s.cpu c).pc = .refill sp va)
      (hlook : s.pm.pageLookup sp.pgdir va = some (some (pp, pte))) :
      MmuCase s (.step c) (s.goto c (.install sp va
        (entryLo (s.pm.read (pte.1, evenIdx pte.2))) (entryLo (s.pm.read (pte.1, oddIdx pte.2)))
        (s.bornOf (entryLo (s.pm.read (pte.1, evenIdx pte.2))),
          s.bornOf (entryLo (s.pm.read (pte.1, oddIdx pte.2))))))
  | passiveAlloc {c : CpuId} {sp : Space n} {va : Word} {p : Page n} {m : Pmap n}
      (hpc : (s.cpu c).pc = .refill sp va) (hlook : s.pm.pageLookup sp.pgdir va = some none)
      (hva : passiveAllocRefuses va = false) (halloc : s.pm.pageAlloc = .ok (p, m)) :
      MmuCase s (.step c) ((s.setPm m).goto c (.fill sp va p))
  | fill {c : CpuId} {sp : Space n} {va : Word} {p : Page n} {m : Pmap n}
      (hpc : (s.cpu c).pc = .fill sp va p)
      (hrun : s.pm.pageInsert sp.pgdir p (pteAddr va) (passiveAllocPerm va) = some (.ok (), m)) :
      MmuCase s (.step c) ((if pdx va = pdx UVPT ∧ pdx UVPT < ptx va then
          { s.setPm m with own := update s.own p (s.own p + 1) } else s.setPm m).goto c
        (.flush (some sp.pgdir) sp.asid (pteAddr va) (.refill sp va)))
  | install {c : CpuId} {sp : Space n} {va lo0 lo1 : Word} {born : Nat × Nat}
      (hpc : (s.cpu c).pc = .install sp va lo0 lo1 born) :
      MmuCase s (.step c) ((s.upd c (fun x => { x with
        tlb := ⟨entryHi (asidWord sp.asid) va, lo0, lo1, born⟩ :: x.tlb })).goto c .rest)
  | insertFails {c : CpuId} {src : Option (Page n × Word)} {dst : Space n} {pp : Page n}
      {va perm : Word} {err : Err} {m : Pmap n} (hpc : (s.cpu c).pc = .insert src dst pp va perm)
      (hrun : s.pm.pageInsert dst.pgdir pp va perm = some (.error err, m)) :
      MmuCase s (.step c) ((s.setPm m).goto c .rest)
  | insert {c : CpuId} {src : Option (Page n × Word)} {dst : Space n} {pp : Page n}
      {va perm : Word} {m : Pmap n} (hpc : (s.cpu c).pc = .insert src dst pp va perm)
      (hrun : s.pm.pageInsert dst.pgdir pp va perm = some (.ok (), m)) :
      MmuCase s (.step c) ((s.setPm m).goto c (.flush (some dst.pgdir) dst.asid va .rest))
  | noAsid {c : CpuId} {p : Page n} (hpc : (s.cpu c).pc = .built p) :
      MmuCase s (.step c) (s.goto c .rest)
  | asidAlloc {c : CpuId} {p : Page n} {a : Asid} {bitmap : Asid → Bool}
      (hpc : (s.cpu c).pc = .built p) (ha : asidAlloc s.asidBitmap = some (a, bitmap)) :
      MmuCase s (.step c) ({ s with
        asidBitmap := bitmap
        asidOf := update s.asidOf p (some a) }.goto c .rest)
  | flush {c : CpuId} {o : Option (Page n)} {a : Asid} {va : Word} {next : MmuPc n}
      (hpc : (s.cpu c).pc = .flush o a va next) :
      MmuCase s (.step c) ((s.flushLocal c a va).goto c (.await o a va false next))
  | resume {c : CpuId} {o : Option (Page n)} {a : Asid} {va : Word} {next : MmuPc n}
      (hpc : (s.cpu c).pc = .await o a va true next) : MmuCase s (.step c) (s.goto c next)
  | scanEnd {c : CpuId} {sp : Space n} {i : Nat} (hpc : (s.cpu c).pc = .scan sp i)
      (hnone : nextValid (s.pm.mem sp.pgdir) i ((pdx UTOP).val - i) = none) :
      MmuCase s (.step c) (s.goto c (.dropDir sp))
  | scanTable {c : CpuId} {sp : Space n} {i : Nat} {k : Idx} {t : Page n}
      (hpc : (s.cpu c).pc = .scan sp i)
      (hsome : nextValid (s.pm.mem sp.pgdir) i ((pdx UTOP).val - i) = some k)
      (ht : pa2page (pteAddr (s.pm.mem sp.pgdir k)) = some t) :
      MmuCase s (.step c) (s.goto c (.strip sp k t 0))
  | stripPage {c : CpuId} {sp : Space n} {i k : Idx} {t : Page n} {j : Nat} {s' : Mmu n}
      (hpc : (s.cpu c).pc = .strip sp i t j)
      (hsome : nextValid (s.pm.mem t) j (1024 - j) = some k)
      (hremove : s.removeStep c sp (vaOf i k) (.strip sp i t (k.val + 1)) = some s') :
      MmuCase s (.step c) s'
  | stripTable {c : CpuId} {sp : Space n} {i : Idx} {t : Page n} {j : Nat} {m : Pmap n}
      (hpc : (s.cpu c).pc = .strip sp i t j)
      (hnone : nextValid (s.pm.mem t) j (1024 - j) = none)
      (hdec : (s.pm.write (sp.pgdir, i) 0).pageDecref t = some m) :
      MmuCase s (.step c) ((s.setPm m).goto c
        (.flush (some sp.pgdir) sp.asid (uvptVa i) (.scan sp (i.val + 1))))
  | dropDir {c : CpuId} {sp : Space n} {m : Pmap n} (hpc : (s.cpu c).pc = .dropDir sp)
      (hdec : s.pm.pageDecref sp.pgdir = some m) :
      MmuCase s (.step c) ({ s.setPm m with
        dirs := update s.dirs sp.pgdir false
        asidOf := update s.asidOf sp.pgdir none
        own := update s.own sp.pgdir (s.own sp.pgdir - 1) }.goto c (.dropAsid sp.asid))
  | dropAsid {c : CpuId} {a : Asid} (hpc : (s.cpu c).pc = .dropAsid a) :
      MmuCase s (.step c) ({ s with
        asidBitmap := update s.asidBitmap a false }.goto c
          (.flush none a (uvptVa (pdx UVPT)) .rest))

theorem pcStep_cases {c : CpuId} (h : s.pcStep c (s.cpu c).pc = some s') :
    MmuCase s (.step c) s' := by
  cases hpc : (s.cpu c).pc with
  | rest =>
    rw [hpc] at h
    cases h
  | refill =>
    rw [hpc] at h
    simp only [pcStep, refillStep] at h
    split at h
    · cases h
    · next hlook =>
      split at h
      · cases h
      · next hva =>
        split at h <;> cases h
        next p m ha =>
        exact .passiveAlloc hpc hlook (by simpa using hva) ha
    · next pp pte hlook =>
      cases h
      exact .read hpc hlook
  | fill =>
    rw [hpc] at h
    simp only [pcStep] at h
    split at h <;> cases h
    next m hrun =>
    exact .fill hpc hrun
  | install =>
    rw [hpc] at h
    cases h
    exact .install hpc
  | insert =>
    rw [hpc] at h
    simp only [pcStep] at h
    split at h <;> cases h
    · next err m hrun =>
      exact .insertFails hpc hrun
    · next m hrun =>
      exact .insert hpc hrun
  | built =>
    rw [hpc] at h
    simp only [pcStep] at h
    split at h <;> cases h
    · exact .noAsid hpc
    · next a bitmap ha =>
      exact .asidAlloc hpc ha
  | flush =>
    rw [hpc] at h
    cases h
    exact .flush hpc
  | await o a va acked next =>
    rw [hpc] at h
    simp only [pcStep] at h
    split at h <;> cases h
    next hack =>
    subst hack
    exact .resume hpc
  | scan =>
    rw [hpc] at h
    simp only [pcStep, scanStep] at h
    split at h
    · next hnone =>
      cases h
      exact .scanEnd hpc hnone
    · next k hsome =>
      split at h <;> cases h
      next t ht =>
      exact .scanTable hpc hsome ht
  | strip =>
    rw [hpc] at h
    simp only [pcStep, stripStep] at h
    split at h
    · next k hsome => exact .stripPage hpc hsome h
    · next hnone =>
      obtain ⟨m, hdec, rfl⟩ := Option.map_eq_some_iff.mp h
      exact .stripTable hpc hnone hdec
  | dropDir =>
    rw [hpc] at h
    simp only [pcStep] at h
    obtain ⟨m, hdec, rfl⟩ := Option.map_eq_some_iff.mp h
    exact .dropDir hpc hdec
  | dropAsid =>
    rw [hpc] at h
    cases h
    exact .dropAsid hpc

theorem exec_cases (h : s.exec l = some s') : MmuCase s l s' := by
  cases l with
  | step => exact pcStep_cases h
  | touch =>
    simp only [exec] at h
    split at h
    · next a hpc ha =>
      split at h <;> cases h
      next hva =>
      exact .touch hpc ha hva
    · cases h
  | memAlloc =>
    simp only [exec] at h
    split at h
    · next a hpc ha =>
      split at h
      · cases h
      · next hva =>
        split at h <;> cases h
        · exact .same _
        · next p m halloc =>
          exact .memAlloc hpc ha (pdx_lt_utop (by simpa using hva)) halloc
    · cases h
  | share =>
    simp only [exec] at h
    split at h
    · next b a hpc hb ha =>
      split at h
      · cases h
      · next hva =>
        rw [not_or] at hva
        split at h <;> cases h
        · exact .same _
        · next pp pte hlook =>
          exact .share hpc hb ha (pdx_lt_utop (by simpa using hva.1)) (pdx_dstva hva.2) hlook
    · cases h
  | unmap =>
    simp only [exec] at h
    split at h
    · next a hpc ha =>
      split at h
      · cases h
      · next hva => exact .unmap hpc ha (pdx_lt_utop (by simpa using hva)) h
    · cases h
  | envFree =>
    simp only [exec] at h
    split at h <;> cases h
    next a hpc ha =>
    exact .envFree hpc ha
  | setupVm =>
    simp only [exec] at h
    split at h <;> cases h
    next p m hpc ha =>
    exact .setupVm hpc ha
  | serve =>
    simp only [exec, serveStep] at h
    split at h <;> cases h
    next o a va next hpoll hpc =>
    exact .serve hpoll hpc
  | evict =>
    cases h
    exact .evict

end Mmu

end MosSmp
