import TerraformTrace.Number.Binary64
import TerraformTrace.Text.Basic

/-!
# TerraformTrace.Settings.Basic

The settings of a workspace and their defaults.
-/

namespace TerraformTrace

/-- The options of a resolver. -/
structure Settings where
  /-- How many references one resolution may follow one after the other. -/
  maxDepth : Nat := 10
  /-- How long a cached result may be used, in seconds. -/
  cacheTtl : Binary64 := .ofNat 60
  /-- How many results are cached. -/
  cacheMaxEntries : Nat := 1000
  /-- Time between two sweeps of the cache, in seconds. -/
  sweepInterval : Binary64 := .ofNat 300
  /-- Name of the encoding of all files. -/
  encoding : Text := "utf-8".toList
  /-- Suffixes of the files that assign variables. -/
  overrideSuffixes : List Text := [".tfvars".toList, ".tfvars.json".toList]
  /-- Suffixes of the files that hold blocks. -/
  configurationSuffixes : List Text := [".tf".toList]
  /-- Directories, below the workspace, of the environments. -/
  environmentDirectories : List Text :=
    ["environments/dev", "environments/test", "environments/production", "environments/staging",
      "env/dev", "env/test", "env/production", "env/staging",
      "dev", "test", "production", "staging"].map String.toList
  /-- Fragments that mark a module source as not local. -/
  remoteSourceMarkers : List Text :=
    ["://", "::", "git@", "github.com", "bitbucket.org", "terraform.io"].map String.toList
deriving DecidableEq, Repr

end TerraformTrace
