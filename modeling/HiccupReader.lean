import HiccupReader.Main
import HiccupReader.Proofs.Clojure.Closers
import HiccupReader.Proofs.Clojure.Concatenation
import HiccupReader.Proofs.Clojure.Delimiters
import HiccupReader.Proofs.Clojure.Enclosing
import HiccupReader.Proofs.Clojure.Help
import HiccupReader.Proofs.Clojure.Listing
import HiccupReader.Proofs.Clojure.Misfit
import HiccupReader.Proofs.Clojure.NestingLimit
import HiccupReader.Proofs.Clojure.Slicing
import HiccupReader.Proofs.Clojure.Subforms
import HiccupReader.Proofs.Clojure.Truncating
import HiccupReader.Proofs.CommandLine.Documents
import HiccupReader.Proofs.CommandLine.Failures
import HiccupReader.Proofs.Files.SameFile
import HiccupReader.Proofs.Hiccup
import HiccupReader.Proofs.Layout.Inlining
import HiccupReader.Proofs.Layout.Misfits
import HiccupReader.Proofs.Layout.Walk
import HiccupReader.Proofs.LeafIteration
import HiccupReader.Proofs.Reader.Documents
import HiccupReader.Proofs.Reader.Edn
import HiccupReader.Proofs.Reader.Failures
import HiccupReader.Proofs.Reader.Respacing
import HiccupReader.Proofs.Reader.Settings
import HiccupReader.Proofs.RuleRegistration
import HiccupReader.Proofs.Settings.Yaml
